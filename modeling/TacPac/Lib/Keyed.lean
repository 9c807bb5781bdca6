import Mathlib.Order.Lattice
import Mathlib.Data.List.Basic
import Mathlib.Data.List.Nodup
import Mathlib.Data.List.Pairwise
import Mathlib.Data.List.Perm.Basic
import Mathlib.Data.List.Perm.Subperm

/-!
# Children under increasing keys

A node of a tree database to which children are only ever added under keys larger
than those in use, so that key order is the order of creation. A query asks for the
first or the last few of them. The answer is a dictionary: it can be looked into,
and it can be walked in whatever order its keys are enumerated in.

The two ends of a list agree only by accident (`take_perm_drop`), and the two
windows of a node only when both are the whole of it (`firstKeys_perm_lastKeys`).
-/

namespace TacPac.Lib

/-! ## The two ends of a list -/

section Ends

variable {α : Type}

/-- If `a ++ b` and `c ++ d` have the same elements, so have `a` and `d` exactly if `b` and `c`. -/
theorem perm_cross {a b c d : List α} (h : (a ++ b).Perm (c ++ d)) :
    a.Perm d ↔ b.Perm c := by
  constructor
  · intro had
    have hswap : (c ++ d).Perm (d ++ c) := List.perm_append_comm
    have hac : (a ++ b).Perm (a ++ c) := h.trans (hswap.trans (had.symm.append_right c))
    exact (List.perm_append_left_iff a).mp hac
  · intro hbc
    have hswap : (c ++ d).Perm (d ++ c) := List.perm_append_comm
    have hdb : (a ++ b).Perm (d ++ b) := h.trans (hswap.trans (hbc.symm.append_left d))
    exact (List.perm_append_right_iff b).mp hdb

/-- The first `m` are the last `m`, up to order, exactly if what follows the first is
what precedes the last. -/
theorem take_perm_drop (l : List α) (m : Nat) :
    (l.take m).Perm (l.drop (l.length - m)) ↔ (l.drop m).Perm (l.take (l.length - m)) := by
  refine perm_cross ?_
  rw [List.take_append_drop, List.take_append_drop]

theorem take_perm_drop_of_le {l : List α} {m : Nat} (h : l.length ≤ m) :
    (l.drop m).Perm (l.take (l.length - m)) := by
  rw [List.drop_of_length_le h, Nat.sub_eq_zero_of_le h, List.take_zero]

end Ends

/-! ## Nodes -/

/-- A node: its children, in key order. -/
structure Node (κ ν : Type) [LT κ] where
  children : List (κ × ν)
  sorted : (children.map Prod.fst).Pairwise (· < ·)

namespace Node

variable {κ ν : Type} [LinearOrder κ]

/-- A node without children. -/
def empty : Node κ ν := ⟨[], List.Pairwise.nil⟩

/-- A new child, under a key that is larger than all there are. -/
def push (n : Node κ ν) (k : κ) (v : ν) (h : ∀ c ∈ n.children, c.1 < k) : Node κ ν where
  children := n.children ++ [(k, v)]
  sorted := by
    rw [List.map_append]
    refine List.pairwise_append.mpr ⟨n.sorted, List.pairwise_singleton .., fun a ha b hb => ?_⟩
    obtain ⟨c, hc, rfl⟩ := List.mem_map.mp ha
    rw [List.map_singleton, List.mem_singleton] at hb
    rw [hb]
    exact h c hc

@[simp] theorem push_children (n : Node κ ν) (k : κ) (v : ν) (h : ∀ c ∈ n.children, c.1 < k) :
    (n.push k v h).children = n.children ++ [(k, v)] := rfl

theorem keys_nodup (n : Node κ ν) : (n.children.map Prod.fst).Nodup :=
  n.sorted.imp (fun h => ne_of_lt h)

/-- The children with the `m` smallest keys. -/
def limitedToFirst (n : Node κ ν) (m : Nat) : List (κ × ν) := n.children.take m

/-- The children with the `m` largest keys. -/
def limitedToLast (n : Node κ ν) (m : Nat) : List (κ × ν) :=
  n.children.drop (n.children.length - m)

theorem limitedToFirst_nodup (n : Node κ ν) (m : Nat) :
    ((n.limitedToFirst m).map Prod.fst).Nodup :=
  n.keys_nodup.sublist ((List.take_sublist m n.children).map Prod.fst)

/-- **The two windows.** Unless they are the whole node they are different children. -/
theorem firstKeys_perm_lastKeys (n : Node κ ν) {m : Nat} (hm : 0 < m) :
    ((n.limitedToFirst m).map Prod.fst).Perm ((n.limitedToLast m).map Prod.fst)
      ↔ n.children.length ≤ m := by
  constructor
  · intro h
    by_contra hlen
    have hlen : m < n.children.length := by omega
    -- the oldest child is among the first, and all of the last are younger
    rcases hc : n.children with _ | ⟨c, rest⟩
    · rw [hc] at hlen
      exact absurd hlen (by simp)
    · have hsorted := n.sorted
      rw [hc, List.map_cons, List.pairwise_cons] at hsorted
      have hfirst : c.1 ∈ (n.limitedToFirst m).map Prod.fst := by
        unfold limitedToFirst
        rw [hc]
        obtain ⟨m', rfl⟩ := Nat.exists_eq_succ_of_ne_zero (Nat.pos_iff_ne_zero.mp hm)
        rw [List.take_succ_cons, List.map_cons]
        exact List.mem_cons_self
      have hlast := h.mem_iff.mp hfirst
      unfold limitedToLast at hlast
      obtain ⟨d, hd⟩ : ∃ d, n.children.length - m = d + 1 := ⟨n.children.length - m - 1, by omega⟩
      rw [hd, hc, List.drop_succ_cons] at hlast
      have hmem : c.1 ∈ rest.map Prod.fst :=
        ((List.drop_sublist d rest).map Prod.fst).subset hlast
      exact lt_irrefl _ (hsorted.1 c.1 hmem)
  · intro hlen
    unfold limitedToFirst limitedToLast
    rw [List.take_of_length_le hlen, Nat.sub_eq_zero_of_le hlen, List.drop_zero]

end Node

/-! ## Dictionaries -/

/-- Two entries of which something with the same key is kept are one entry. -/
theorem eq_of_nodup_filterMap {α β κ : Type} {f : α → Option β} {key : β → κ} {l : List α}
    (hl : ((l.filterMap f).map key).Nodup) {x y : α} {b c : β} (hx : x ∈ l) (hy : y ∈ l)
    (hb : f x = some b) (hc : f y = some c) (hkey : key b = key c) : x = y := by
  by_contra hxy
  rw [List.Nodup, List.pairwise_map, List.pairwise_filterMap] at hl
  have hsymm : Std.Symm fun a a' => ∀ b, f a = some b → ∀ b', f a' = some b' → key b ≠ key b' :=
    ⟨fun a a' h b' hb' b hb => (h b hb b' hb').symm⟩
  exact hl.forall hx hy hxy b hb c hc hkey

section Dictionaries

variable {κ ν : Type} [DecidableEq κ]

/-- Looking a key up. -/
def valueUnder (s : List (κ × ν)) (k : κ) : Option ν := (s.find? (fun c => c.1 = k)).map Prod.snd

/-- Walking a dictionary along an enumeration of its keys. -/
def along (keys : List κ) (s : List (κ × ν)) : List ν := keys.filterMap (valueUnder s)

/-- Where keys are pairwise different, an element is found under its own. -/
theorem find_of_nodup {α : Type} {key : α → κ} {l : List α} (hl : (l.map key).Nodup) {a : α}
    (ha : a ∈ l) : l.find? (fun x => key x = key a) = some a := by
  cases hf : l.find? (fun x => key x = key a) with
  | none =>
      have hnone := List.find?_eq_none.mp hf a ha
      simp at hnone
  | some b =>
      have hkey : key b = key a := by simpa using List.find?_some hf
      exact congrArg some (List.inj_on_of_nodup_map hl (List.mem_of_find?_eq_some hf) ha hkey)

/-- Where keys are pairwise different, at most one element has a given one. -/
theorem filter_of_nodup {α : Type} {key : α → κ} {l : List α} (hl : (l.map key).Nodup) (k : κ) :
    l.filter (fun x => key x = k) = (l.find? (fun x => key x = k)).toList := by
  induction l with
  | nil => rfl
  | cons a l ih =>
      obtain ⟨hne, hl⟩ := List.nodup_cons.mp hl
      by_cases ha : key a = k
      · -- nothing after `a` has its key
        have hnil : l.filter (fun x => key x = k) = [] := by
          refine List.filter_eq_nil_iff.mpr fun x hx hxk => hne ?_
          rw [ha, ← of_decide_eq_true hxk]
          exact List.mem_map_of_mem hx
        simp [ha, hnil]
      · rw [List.filter_cons_of_neg (by simpa using ha), List.find?_cons_of_neg (by simpa using ha)]
        exact ih hl

theorem valueUnder_mem {s : List (κ × ν)} (hs : (s.map Prod.fst).Nodup) {c : κ × ν}
    (hc : c ∈ s) : valueUnder s c.1 = some c.2 := by
  unfold valueUnder
  rw [find_of_nodup hs hc]
  rfl

/-- Every key of an enumeration is found. -/
theorem along_eq {keys : List κ} {s : List (κ × ν)} (hs : (s.map Prod.fst).Nodup)
    (hkeys : keys.Perm (s.map Prod.fst)) :
    keys.map (valueUnder s) = (along keys s).map some := by
  have hfound : ∀ k ∈ keys, ∃ v, valueUnder s k = some v := by
    intro k hk
    obtain ⟨c, hc, rfl⟩ := List.mem_map.mp (hkeys.mem_iff.mp hk)
    exact ⟨c.2, valueUnder_mem hs hc⟩
  -- from here on only that each key is found matters
  clear hkeys
  unfold along
  induction keys with
  | nil => rfl
  | cons k keys ih =>
      obtain ⟨v, hv⟩ := hfound k List.mem_cons_self
      rw [List.map_cons, List.filterMap_cons_some hv, List.map_cons, hv,
        ih (fun x hx => hfound x (List.mem_cons_of_mem _ hx))]

/-- **Whatever the enumeration**, the values are those of the dictionary, each once. -/
theorem along_perm {keys : List κ} {s : List (κ × ν)} (hs : (s.map Prod.fst).Nodup)
    (hkeys : keys.Perm (s.map Prod.fst)) : (along keys s).Perm (s.map Prod.snd) := by
  have hall : ∀ l : List (κ × ν), (∀ c ∈ l, c ∈ s) →
      along (l.map Prod.fst) s = l.map Prod.snd := by
    intro l
    induction l with
    | nil => intro _; rfl
    | cons c l ih =>
        intro hl
        have hrest := ih (fun x hx => hl x (List.mem_cons_of_mem _ hx))
        unfold along at hrest ⊢
        rw [List.map_cons, List.filterMap_cons_some (valueUnder_mem hs (hl c List.mem_cons_self)),
          hrest, List.map_cons]
  -- along its own keys a dictionary gives its values, and `keys` only permutes them
  rw [← hall s (fun c hc => hc)]
  exact hkeys.filterMap (valueUnder s)

end Dictionaries

end TacPac.Lib
