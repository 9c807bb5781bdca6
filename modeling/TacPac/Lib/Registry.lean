import TacPac.Lib.Trace

/-!
# Accounts, and who may enter them

What accounts are for, as a sequential machine: somebody who gives the name of an account
and its password, or comes with a login of it, enters it. Names, passwords and logins are
of any types.

Its acts are the single steps of those who look first and write later. Whoever changes an
account has loaded its password and writes one back, so that what others have written
meanwhile is lost; and whoever adds a login has looked whether it is anybody's, so that two
who look at once may both add it. No two accounts have a name in common all the same
(`sound_after`). What opens an account is decided by the saves of it alone (`holder_after`),
and a login that is added was looked for (`opensWith_of_after`).
-/

namespace TacPac.Lib

/-- An account: its name, and what opens it. -/
structure Holder (N P L : Type) where
  name : N
  password : Option P
  logins : List L

/-- The accounts, by number. -/
structure Registry (N P L : Type) where
  next : Nat
  holder : Nat → Option (Holder N P L)

namespace Registry

variable {N P L L' : Type}

/-! ## Acts -/

/-- What a save does to the logins of its account. -/
inductive Change (L : Type) where
  | keep
  | add (login : L)
  | remove (login : L)
  deriving DecidableEq

/-- The same change, of what stands for the logins. -/
def Change.map (f : L → L') : Change L → Change L'
  | .keep => .keep
  | .add login => .add (f login)
  | .remove login => .remove (f login)

/-- The logins after the change. -/
def Change.apply [DecidableEq L] (logins : List L) : Change L → List L
  | .keep => logins
  | .add login => logins ++ [login]
  | .remove login => logins.filter (· ≠ login)

/-- A login is added that is not there, or removed that is. -/
def Change.can (logins : List L) : Change L → Prop
  | .keep => True
  | .add login => login ∉ logins
  | .remove login => login ∈ logins

/-- What is done to the accounts, or found out about them. -/
inductive Act (N P L : Type) where
  /-- A number is given out. -/
  | number (id : Nat)
  /-- An account is made under a number and a name. -/
  | create (id : Nat) (name : N) (password : Option P)
  /-- Somebody loads an account, with its password. -/
  | load (id : Nat) (password : Option P)
  /-- The account gets this password, and its logins change. -/
  | save (id : Nat) (password : Option P) (change : Change L)
  /-- Somebody gives a name and a password, and finds an account or none. -/
  | enter (name : N) (password : P) (who : Option Nat)
  /-- Somebody looks for a login, and finds an account that has it or none. -/
  | enterWith (login : L) (who : Option Nat)

/-- The account that is made or changed. -/
def Act.subject : Act N P L → Option Nat
  | .number _ => none
  | .create id _ _ => some id
  | .load _ _ => none
  | .save id _ _ => some id
  | .enter _ _ _ => none
  | .enterWith _ _ => none

/-- Nothing is changed, but something found out. -/
def Act.looks : Act N P L → Bool
  | .load _ _ => true
  | .enter _ _ _ => true
  | .enterWith _ _ => true
  | _ => false

theorem subject_of_looks {e : Act N P L} (h : e.looks = true) : e.subject = none := by
  cases e with
  | load id password => rfl
  | enter name password who => rfl
  | enterWith login who => rfl
  | number id => cases h
  | create id name password => cases h
  | save id password change => cases h

/-- One account is altered. -/
def alter (g : Registry N P L) (id : Nat) (f : Holder N P L → Holder N P L) : Registry N P L :=
  { g with holder := fun j => if j = id then (g.holder j).map f else g.holder j }

theorem alter_holder_self (g : Registry N P L) (id : Nat) (f : Holder N P L → Holder N P L) :
    (g.alter id f).holder id = (g.holder id).map f := if_pos rfl

theorem alter_holder_other {g : Registry N P L} {id j : Nat} (hj : j ≠ id)
    (f : Holder N P L → Holder N P L) : (g.alter id f).holder j = g.holder j := if_neg hj

/-- Where an account that has been altered comes from. -/
theorem of_alter {g : Registry N P L} {id j : Nat} {f : Holder N P L → Holder N P L}
    {h : Holder N P L} (hj : (g.alter id f).holder j = some h) :
    ∃ h₀, g.holder j = some h₀ ∧ (h = h₀ ∨ j = id ∧ h = f h₀) := by
  by_cases hid : j = id
  · rw [hid, alter_holder_self] at hj
    obtain ⟨h₀, h₁, rfl⟩ := Option.map_eq_some_iff.mp hj
    exact ⟨h₀, by rw [hid]; exact h₁, Or.inr ⟨hid, rfl⟩⟩
  · rw [alter_holder_other hid] at hj
    exact ⟨h, hj, Or.inl rfl⟩

/-- Who gives this name and this password enters the account. -/
def Opens (g : Registry N P L) (name : N) (password : P) (id : Nat) : Prop :=
  ∃ h, g.holder id = some h ∧ h.name = name ∧ h.password = some password

/-- Who comes with this login enters the account, or another that has it too. -/
def OpensWith (g : Registry N P L) (login : L) (id : Nat) : Prop :=
  ∃ h, g.holder id = some h ∧ login ∈ h.logins

theorem opens_iff {g : Registry N P L} {id : Nat} {h : Holder N P L} (hg : g.holder id = some h)
    {name : N} {password : P} :
    g.Opens name password id ↔ h.name = name ∧ h.password = some password := by
  unfold Opens
  rw [hg]
  simp

theorem opensWith_iff {g : Registry N P L} {id : Nat} {h : Holder N P L}
    (hg : g.holder id = some h) {login : L} : g.OpensWith login id ↔ login ∈ h.logins := by
  unfold OpensWith
  rw [hg]
  simp

/-- Numbers are given out before they are used, and no two accounts have a name in common. -/
structure Sound (g : Registry N P L) : Prop where
  bound : ∀ id h, g.holder id = some h → id < g.next
  names : ∀ id id' h h', g.holder id = some h → g.holder id' = some h' → h.name = h'.name →
    id = id'

/-- An account keeps its name. -/
theorem sound_alter {g : Registry N P L} (hg : g.Sound) {id : Nat}
    {f : Holder N P L → Holder N P L} (hname : ∀ h, (f h).name = h.name) :
    (g.alter id f).Sound := by
  have hkeeps : ∀ {j h}, (g.alter id f).holder j = some h →
      ∃ h₀, g.holder j = some h₀ ∧ h.name = h₀.name := by
    intro j h hj
    obtain ⟨h₀, h₁, rfl | ⟨-, rfl⟩⟩ := of_alter hj
    · exact ⟨h, h₁, rfl⟩
    · exact ⟨h₀, h₁, hname h₀⟩
  refine ⟨fun j h hj => ?_, fun j j' h h' hj hj' hn => ?_⟩
  · obtain ⟨h₀, h₁, -⟩ := hkeeps hj
    exact hg.bound j h₀ h₁
  · obtain ⟨h₀, h₁, hname₀⟩ := hkeeps hj
    obtain ⟨h₀', h₁', hname₀'⟩ := hkeeps hj'
    rw [hname₀, hname₀'] at hn
    exact hg.names j j' h₀ h₀' h₁ h₁' hn

/-! ## The machine -/

section Machine

variable [DecidableEq L]

/-- What an act does. -/
def apply (g : Registry N P L) : Act N P L → Registry N P L
  | .number id => { g with next := id + 1 }
  | .create id name password =>
      { g with holder := fun j => if j = id then some ⟨name, password, []⟩ else g.holder j }
  | .load _ _ => g
  | .save id password change =>
      g.alter id fun h => { h with password := password, logins := change.apply h.logins }
  | .enter _ _ _ => g
  | .enterWith _ _ => g

/-- When it can be done, and what is found out by it. -/
def can (g : Registry N P L) : Act N P L → Prop
  | .number id => id = g.next
  | .create id name _ =>
      id < g.next ∧ g.holder id = none ∧ ∀ j h, g.holder j = some h → h.name ≠ name
  | .load id password => ∃ h, g.holder id = some h ∧ h.password = password
  | .save id _ change => ∃ h, g.holder id = some h ∧ change.can h.logins
  | .enter name password who => ∀ id, who = some id ↔ g.Opens name password id
  | .enterWith login who =>
      (∀ id, who = some id → g.OpensWith login id)
        ∧ (who = none → ∀ id, ¬ g.OpensWith login id)

/-- The accounts, as a machine. -/
def machine : Machine (Registry N P L) (Act N P L) := ⟨apply, can⟩

/-- Where an account comes from when one has been made. -/
theorem of_create {g : Registry N P L} {id j : Nat} {name : N} {password : Option P}
    {h : Holder N P L} (hj : (g.apply (.create id name password)).holder j = some h) :
    j = id ∧ h = ⟨name, password, []⟩ ∨ g.holder j = some h := by
  by_cases hid : j = id
  · rw [hid] at hj
    have hnew : (g.apply (.create id name password)).holder id = _ := if_pos rfl
    rw [hnew] at hj
    exact Or.inl ⟨hid, (Option.some.inj hj).symm⟩
  · have hold : (g.apply (.create id name password)).holder j = g.holder j := if_neg hid
    rw [hold] at hj
    exact Or.inr hj

theorem sound_create {g : Registry N P L} (hg : g.Sound) {id : Nat} {name : N}
    {password : Option P} (hcan : g.can (.create id name password)) :
    (g.apply (.create id name password)).Sound := by
  obtain ⟨hlt, -, hfree⟩ := hcan
  refine ⟨fun j h hj => ?_, fun j j' h h' hj hj' hn => ?_⟩
  · rcases of_create hj with ⟨rfl, -⟩ | hj
    · exact hlt
    · exact hg.bound j h hj
  · rcases of_create hj with ⟨rfl, rfl⟩ | hold
    · rcases of_create hj' with ⟨rfl, -⟩ | hold'
      · rfl
      · exact absurd hn.symm (hfree j' h' hold')
    · rcases of_create hj' with ⟨rfl, rfl⟩ | hold'
      · exact absurd hn (hfree j h hold)
      · exact hg.names j j' h h' hold hold' hn

/-- **Every act** keeps the accounts apart. -/
theorem sound_apply (g : Registry N P L) (e : Act N P L) (hg : g.Sound) (hcan : g.can e) :
    (g.apply e).Sound := by
  cases e with
  | number id =>
      refine ⟨fun j h hj => ?_, hg.names⟩
      have hlt := hg.bound j h hj
      have hid : id = g.next := hcan
      show j < id + 1
      omega
  | create id name password => exact sound_create hg hcan
  | load id password => exact hg
  | save id password change => exact sound_alter hg fun _ => rfl
  | enter name password who => exact hg
  | enterWith login who => exact hg

theorem sound_after {g : Registry N P L} {es : List (Act N P L)} (h : machine.Legal g es)
    (hg : g.Sound) : (machine.after g es).Sound :=
  Machine.legal_invariant sound_apply es h hg

/-- An act on one account is nothing to another. -/
theorem apply_holder {g : Registry N P L} {e : Act N P L} {id : Nat}
    (h : e.subject ≠ some id) : (g.apply e).holder id = g.holder id := by
  have hne : ∀ {j : Nat}, some j ≠ some id → id ≠ j := fun hj e => hj (by rw [e])
  cases e with
  | number j => rfl
  | create j name password => exact if_neg (hne h)
  | load j password => rfl
  | save j password change => exact alter_holder_other (hne h) _
  | enter name password who => rfl
  | enterWith login who => rfl

/-- **What opens an account** is decided by the acts on it. -/
theorem holder_after {id : Nat} (es : List (Act N P L)) : ∀ {g : Registry N P L},
    (∀ e ∈ es, e.subject ≠ some id) → (machine.after g es).holder id = g.holder id := by
  induction es with
  | nil => exact fun _ => rfl
  | cons e es ih =>
      intro g h
      show (machine.after (g.apply e) es).holder id = _
      rw [ih fun e' he' => h e' (List.mem_cons_of_mem _ he'),
        apply_holder (h e List.mem_cons_self)]

/-! ## Logins -/

theorem mem_apply {logins : List L} {change : Change L} {login : L} :
    login ∈ change.apply logins
      ↔ login ∈ logins ∧ change ≠ .remove login ∨ change = .add login := by
  cases change with
  | keep => simp [Change.apply]
  | add login' =>
      have hswap : login = login' ↔ Change.add login' = .add login :=
        ⟨fun h => by rw [h], fun h => (Change.add.inj h).symm⟩
      simp [Change.apply, hswap]
  | remove login' =>
      have hswap : login ≠ login' ↔ Change.remove login' ≠ .remove login :=
        not_congr ⟨fun h => by rw [h], fun h => (Change.remove.inj h).symm⟩
      simp [Change.apply, hswap]

/-- A login stays with its account until it is removed. -/
theorem opensWith_apply {g : Registry N P L} {e : Act N P L} {login : L} {id : Nat}
    (hcan : g.can e) (he : ∀ password, e ≠ .save id password (.remove login))
    (h : g.OpensWith login id) : (g.apply e).OpensWith login id := by
  obtain ⟨x, hx, hmem⟩ := h
  cases e with
  | number j => exact ⟨x, hx, hmem⟩
  | create j name password =>
      -- nobody's number is used again
      have hj : id ≠ j := by
        intro hj
        rw [hj, hcan.2.1] at hx
        cases hx
      exact ⟨x, (if_neg hj).trans hx, hmem⟩
  | load j password => exact ⟨x, hx, hmem⟩
  | save j password change =>
      by_cases hj : id = j
      · subst hj
        refine ⟨_, (alter_holder_self g id _).trans (congrArg _ hx), mem_apply.mpr (Or.inl ?_)⟩
        exact ⟨hmem, fun hchange => he password (by rw [hchange])⟩
      · exact ⟨x, (alter_holder_other hj _).trans hx, hmem⟩
  | enter name password who => exact ⟨x, hx, hmem⟩
  | enterWith login' who => exact ⟨x, hx, hmem⟩

theorem opensWith_after {login : L} {id : Nat} (es : List (Act N P L)) :
    ∀ {g : Registry N P L}, machine.Legal g es →
      (∀ password, .save id password (.remove login) ∉ es) → g.OpensWith login id →
      (machine.after g es).OpensWith login id := by
  induction es with
  | nil => exact fun _ _ h => h
  | cons e es ih =>
      intro g hlegal hes h
      exact ih hlegal.2 (fun password hmem => hes password (List.mem_cons_of_mem _ hmem))
        (opensWith_apply hlegal.1
          (fun password he => hes password (by rw [he]; exact List.mem_cons_self)) h)

/-- It has been there, or has just been added. -/
theorem opensWith_of_apply {g : Registry N P L} {e : Act N P L} {login : L} {id : Nat}
    (h : (g.apply e).OpensWith login id) :
    g.OpensWith login id ∨ ∃ password, e = .save id password (.add login) := by
  obtain ⟨x, hx, hmem⟩ := h
  cases e with
  | number j => exact Or.inl ⟨x, hx, hmem⟩
  | create j name password =>
      rcases of_create hx with ⟨-, rfl⟩ | hold
      · cases hmem
      · exact Or.inl ⟨x, hold, hmem⟩
  | load j password => exact Or.inl ⟨x, hx, hmem⟩
  | save j password change =>
      obtain ⟨x₀, hx₀, rfl | ⟨rfl, rfl⟩⟩ := of_alter hx
      · exact Or.inl ⟨x, hx₀, hmem⟩
      · rcases mem_apply.mp hmem with ⟨hold, -⟩ | rfl
        · exact Or.inl ⟨x₀, hx₀, hold⟩
        · exact Or.inr ⟨password, rfl⟩
  | enter name password who => exact Or.inl ⟨x, hx, hmem⟩
  | enterWith login' who => exact Or.inl ⟨x, hx, hmem⟩

/-- **Where a login comes from.** -/
theorem opensWith_of_after {login : L} {id : Nat} (es : List (Act N P L)) :
    ∀ {g : Registry N P L}, (machine.after g es).OpensWith login id →
      g.OpensWith login id ∨ ∃ password, .save id password (.add login) ∈ es := by
  induction es with
  | nil => exact fun h => Or.inl h
  | cons e es ih =>
      intro g h
      have hrest : (machine.after (g.apply e) es).OpensWith login id := h
      rcases ih hrest with hnow | hlater
      · rcases opensWith_of_apply hnow with hbefore | hadded
        · exact Or.inl hbefore
        · obtain ⟨password, rfl⟩ := hadded
          exact Or.inr ⟨password, List.mem_cons_self⟩
      · obtain ⟨password, hmem⟩ := hlater
        exact Or.inr ⟨password, List.mem_cons_of_mem _ hmem⟩

/-! ## Numbers -/

theorem next_le_apply {g : Registry N P L} {e : Act N P L} (h : g.can e) :
    g.next ≤ (g.apply e).next := by
  cases e with
  | number id =>
      have hid : id = g.next := h
      show g.next ≤ id + 1
      omega
  | _ => exact Nat.le_refl _

/-- A number that is given out is a new one, and given out for good. -/
theorem number_lt {id : Nat} {es : List (Act N P L)} {g : Registry N P L}
    (h : machine.Legal g es) (hid : .number id ∈ es) :
    g.next ≤ id ∧ id < (machine.after g es).next := by
  constructor
  · obtain ⟨g', hle, hcan⟩ := Machine.can_of_mem (I := fun g' => g.next ≤ g'.next)
      (fun g' e hle hcan => Nat.le_trans hle (next_le_apply hcan)) h (Nat.le_refl _) hid
    have hnext : id = g'.next := hcan
    omega
  · exact Machine.after_of_mem (Q := fun g' => id < g'.next) (fun g' _ => Nat.lt_succ_self id)
      (fun g' e hlt hcan => Nat.lt_of_lt_of_le hlt (next_le_apply hcan)) h hid

end Machine

end Registry

end TacPac.Lib
