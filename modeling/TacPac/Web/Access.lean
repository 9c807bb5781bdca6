import TacPac.Lib.Registry
import TacPac.Web.Identity

/-!
# The accounts as a registry

A statement of the user manager is an act on the accounts as a `Registry`, or none (`act`).
What it does to the store is what its act does to the registry, and the act can be done then
(`answers_manageExec`): names have a unique index, so that a user is only inserted if his is
nobody else's, and a login that is added or removed is one that the account has not or has.
-/

namespace TacPac.Web

open TacPac.Lib

/-- Accounts by user name, password and external logins, as the database compares them. -/
abbrev Directory : Type := Registry (Option Utf16) Utf16 UserLoginInfo

/-- What is done to them, or found out about them. -/
abbrev Act : Type := Registry.Act (Option Utf16) Utf16 UserLoginInfo

namespace Accounts

variable (m : ApplicationUserManager) (a : Accounts)

/-- What opens the account of a user. -/
def holderOf (u : ApplicationUser) : Holder (Option Utf16) Utf16 UserLoginInfo :=
  ⟨u.userName.map m.upper, a.passwordHash u.id, (a.loginsOf u.id).map m.loginKey⟩

/-- The registry that the tables stand for. -/
def directory : Directory :=
  ⟨a.store.nextGuid, fun id => (a.findUser id).map (a.holderOf m)⟩

/-- Ids and logins are keys, and what has an owner has one that is there. -/
structure Intact : Prop where
  ids : (a.store.users.map (·.id)).Nodup
  logins : (a.store.logins.map fun l => (l.userId, m.loginKey l.login)).Nodup
  linked : ∀ l ∈ a.store.logins, ∃ u ∈ a.store.users, u.id = l.userId
  hashed : ∀ id, a.passwordHash id ≠ none → ∃ u ∈ a.store.users, u.id = id

end Accounts

/-- The act that a statement with this answer is. -/
def act (m : ApplicationUserManager) : (o : ManagerOp) → o.Res → Option Act
  | .store .newGuid, id => some (.number id)
  | .store (.insertUser user passwordHash), _ =>
      some (.create user.id (user.userName.map m.upper) passwordHash)
  | .store (.updateUser userId passwordHash change), _ =>
      some (.save userId passwordHash (change.map m.loginKey))
  | .store (.findLogin login), user => some (.enterWith (m.loginKey login) (user.map (·.id)))
  | .loadUser userId, loaded => loaded.map fun loaded => .load userId loaded.passwordHash
  | .findAsync userName password, user =>
      some (.enter (some (m.upper userName)) password (user.map (·.id)))
  | _, _ => none

section Accounts

variable {m : ApplicationUserManager} {a a' : Accounts}

theorem findUser_eq_some (ha : a.Intact m) {id : Nat} {u : ApplicationUser} :
    a.findUser id = some u ↔ u ∈ a.store.users ∧ u.id = id := by
  constructor
  · exact fun h => ⟨List.mem_of_find?_eq_some h, Accounts.id_of_findUser h⟩
  · intro hboth
    obtain ⟨hu, hid⟩ := hboth
    obtain ⟨u', hu'⟩ : ∃ u', a.findUser id = some u' := by
      refine Option.isSome_iff_exists.mp (List.find?_isSome.mpr ⟨u, hu, ?_⟩)
      simpa using hid
    rw [hu', List.inj_on_of_nodup_map ha.ids (List.mem_of_find?_eq_some hu') hu
      ((Accounts.id_of_findUser hu').trans hid.symm)]

theorem findUser_eq_none {id : Nat} :
    a.findUser id = none ↔ ∀ u ∈ a.store.users, u.id ≠ id := by
  simp [Accounts.findUser, List.find?_eq_none]

/-- Who is in the registry. -/
theorem holder_eq_some (ha : a.Intact m) {id : Nat}
    {h : Holder (Option Utf16) Utf16 UserLoginInfo} :
    (a.directory m).holder id = some h
      ↔ ∃ u ∈ a.store.users, u.id = id ∧ a.holderOf m u = h := by
  show (a.findUser id).map (a.holderOf m) = some h ↔ _
  rw [Option.map_eq_some_iff]
  constructor
  · intro hex
    obtain ⟨u, hu, rfl⟩ := hex
    obtain ⟨hmem, hid⟩ := (findUser_eq_some ha).mp hu
    exact ⟨u, hmem, hid, rfl⟩
  · intro hex
    obtain ⟨u, hmem, hid, rfl⟩ := hex
    exact ⟨u, (findUser_eq_some ha).mpr ⟨hmem, hid⟩, rfl⟩

theorem mem_loginsOf {id : Nat} {login : UserLoginInfo} :
    login ∈ a.loginsOf id ↔ ⟨id, login⟩ ∈ a.store.logins := by
  simp only [Accounts.loginsOf, List.mem_map, List.mem_filter, decide_eq_true_eq]
  constructor
  · intro hex
    obtain ⟨⟨id', login'⟩, ⟨hmem, rfl⟩, rfl⟩ := hex
    exact hmem
  · exact fun hmem => ⟨⟨id, login⟩, ⟨hmem, rfl⟩, rfl⟩

/-- An account has a login if there is a row of it with that key. -/
theorem mem_logins_iff {id : Nat} {login : UserLoginInfo} :
    m.loginKey login ∈ (a.loginsOf id).map m.loginKey
      ↔ ∃ l ∈ a.store.logins, Store.isLogin m.toHost id login l = true := by
  simp only [List.mem_map, mem_loginsOf, isLogin_iff]
  constructor
  · intro hex
    obtain ⟨login', hmem, hkey⟩ := hex
    exact ⟨_, hmem, rfl, hkey⟩
  · intro hex
    obtain ⟨⟨id', login'⟩, hmem, rfl, hkey⟩ := hex
    exact ⟨login', hmem, hkey⟩

/-- The tables of accounts stay as they are. -/
theorem directory_congr (husers : a'.store.users = a.store.users)
    (hlogins : a'.store.logins = a.store.logins) (hguid : a'.store.nextGuid = a.store.nextGuid)
    (hhash : a'.passwordHash = a.passwordHash) : a'.directory m = a.directory m := by
  unfold Accounts.directory Accounts.holderOf Accounts.findUser Accounts.loginsOf
  rw [husers, hlogins, hguid, hhash]

/-- One account is altered. -/
theorem directory_alter {id : Nat} {f : Holder (Option Utf16) Utf16 UserLoginInfo →
      Holder (Option Utf16) Utf16 UserLoginInfo}
    (husers : a'.store.users = a.store.users) (hguid : a'.store.nextGuid = a.store.nextGuid)
    (hself : ∀ u, u.id = id → a'.holderOf m u = f (a.holderOf m u))
    (hother : ∀ u, u.id ≠ id → a'.holderOf m u = a.holderOf m u) :
    a'.directory m = (a.directory m).alter id f := by
  have hfind : ∀ j, a'.findUser j = a.findUser j := by
    intro j
    unfold Accounts.findUser
    rw [husers]
  have hholder : (a'.directory m).holder = ((a.directory m).alter id f).holder := by
    funext j
    show (a'.findUser j).map (a'.holderOf m) = _
    rw [hfind j]
    by_cases hj : j = id
    · rw [hj, Registry.alter_holder_self]
      show _ = ((a.findUser id).map (a.holderOf m)).map f
      rw [Option.map_map]
      exact Option.map_congr fun u hu => hself u (Accounts.id_of_findUser hu)
    · rw [Registry.alter_holder_other hj]
      refine Option.map_congr fun u hu => hother u ?_
      rw [Accounts.id_of_findUser hu]
      exact hj
  show Registry.mk _ _ = Registry.mk _ _
  exact congr (congrArg Registry.mk hguid) hholder

/-! ## A user is inserted -/

theorem intact_insert (ha : a.Intact m) {user : ApplicationUser}
    (hfree : ∀ u ∈ a.store.users, u.id ≠ user.id) (passwordHash : Option Utf16) :
    Accounts.Intact m { a.setPasswordHash user.id passwordHash with
      store := { a.store with users := a.store.users ++ [user] } } := by
  refine ⟨?_, ha.logins, fun l hl => ?_, fun id hid => ?_⟩
  · show ((a.store.users ++ [user]).map (·.id)).Nodup
    rw [List.map_append, List.nodup_append]
    refine ⟨ha.ids, List.nodup_singleton _, fun i hi j hj hij => ?_⟩
    obtain ⟨u, hu, rfl⟩ := List.mem_map.mp hi
    exact hfree u hu (hij.trans (List.mem_singleton.mp hj))
  · obtain ⟨u, hu, hid⟩ := ha.linked l hl
    exact ⟨u, List.mem_append_left _ hu, hid⟩
  · by_cases heq : id = user.id
    · exact ⟨user, List.mem_append_right _ List.mem_cons_self, heq.symm⟩
    · have hsame : (a.setPasswordHash user.id passwordHash).passwordHash id = a.passwordHash id :=
        if_neg heq
      have hold : a.passwordHash id ≠ none := hsame ▸ hid
      obtain ⟨u, hu, hid'⟩ := ha.hashed id hold
      exact ⟨u, List.mem_append_left _ hu, hid'⟩

theorem directory_insert (ha : a.Intact m) {user : ApplicationUser}
    (hfree : ∀ u ∈ a.store.users, u.id ≠ user.id) (passwordHash : Option Utf16) :
    Accounts.directory m { a.setPasswordHash user.id passwordHash with
        store := { a.store with users := a.store.users ++ [user] } }
      = (a.directory m).apply
          (.create user.id (user.userName.map m.upper) passwordHash) := by
  have hholder : (Accounts.directory m { a.setPasswordHash user.id passwordHash with
        store := { a.store with users := a.store.users ++ [user] } }).holder
      = fun j => if j = user.id then some ⟨user.userName.map m.upper, passwordHash, []⟩
          else (a.directory m).holder j := by
    funext j
    show ((a.store.users ++ [user]).find? fun u => u.id = j).map _ = _
    rw [List.find?_append]
    by_cases hj : j = user.id
    · have hold : a.store.users.find? (fun u => u.id = j) = none :=
        findUser_eq_none.mpr (by rw [hj]; exact hfree)
      -- a new account has no logins yet
      have hnew : a.loginsOf user.id = [] := by
        refine List.eq_nil_iff_forall_not_mem.mpr fun login hmem => ?_
        obtain ⟨u, hu, hid⟩ := ha.linked _ (mem_loginsOf.mp hmem)
        exact hfree u hu hid
      have hhash : (a.setPasswordHash user.id passwordHash).passwordHash user.id = passwordHash :=
        if_pos rfl
      rw [if_pos hj, hold, Option.none_or, hj, List.find?_singleton, if_pos (by simp)]
      show some (Holder.mk _ ((a.setPasswordHash user.id passwordHash).passwordHash user.id)
        ((a.loginsOf user.id).map _)) = _
      rw [hhash, hnew]
      rfl
    · have hnone : [user].find? (fun u => u.id = j) = none := by simp [Ne.symm hj]
      rw [if_neg hj, hnone, Option.or_none]
      refine Option.map_congr fun u hu => ?_
      have hid : u.id ≠ user.id := by
        rw [Accounts.id_of_findUser (a := a) hu]
        exact hj
      have hhash : (a.setPasswordHash user.id passwordHash).passwordHash u.id
          = a.passwordHash u.id := if_neg hid
      show Holder.mk _ ((a.setPasswordHash user.id passwordHash).passwordHash u.id) _ = _
      rw [hhash]
      rfl
  show Registry.mk _ _ = Registry.mk _ _
  exact congrArg (Registry.mk _) hholder

/-! ## A user is updated -/

theorem loginsOf_add (id j : Nat) (login : UserLoginInfo) {logins : List IdentityUserLogin}
    (h : logins = a.store.logins ++ [⟨id, login⟩]) :
    Accounts.loginsOf { a with store := { a.store with logins := logins } } j
      = a.loginsOf j ++ if j = id then [login] else [] := by
  show (logins.filter _).map _ = _
  rw [h, List.filter_append, List.map_append]
  by_cases hj : j = id
  · rw [if_pos hj, hj]
    simp [Accounts.loginsOf]
  · rw [if_neg hj]
    simp [Accounts.loginsOf, Ne.symm hj]

theorem loginsOf_remove (id j : Nat) (login : UserLoginInfo)
    {logins : List IdentityUserLogin}
    (h : logins = a.store.logins.filter fun l => !Store.isLogin m.toHost id login l) :
    Accounts.loginsOf { a with store := { a.store with logins := logins } } j
      = if j = id then (a.loginsOf j).filter (fun l => m.loginKey l ≠ m.loginKey login)
        else a.loginsOf j := by
  show (logins.filter _).map _ = _
  rw [h, List.filter_filter]
  unfold Accounts.loginsOf
  by_cases hj : j = id
  · rw [if_pos hj, List.filter_map, List.filter_filter]
    congr 1
    refine List.filter_congr fun l _ => ?_
    by_cases hl : l.userId = j
    · simp [Store.isLogin, hl, hj]
    · simp [hl]
  · rw [if_neg hj]
    congr 1
    refine List.filter_congr fun l _ => ?_
    by_cases hl : l.userId = j
    · simp [Store.isLogin, hl, hj]
    · simp [hl]

/-- What an update does to the logins of an account, by their keys. -/
theorem loginsOf_changed {id : Nat} {change : LoginChange} {logins : List IdentityUserLogin}
    (h : a.store.changed m.toHost id change = some logins) (j : Nat) :
    (Accounts.loginsOf { a with store := { a.store with logins := logins } } j).map m.loginKey
      = if j = id then (change.map m.loginKey).apply ((a.loginsOf j).map m.loginKey)
        else (a.loginsOf j).map m.loginKey := by
  cases change with
  | keep =>
      cases h
      by_cases hj : j = id
      · rw [if_pos hj]
        rfl
      · rw [if_neg hj]
  | add login =>
      rw [loginsOf_add id j login (changed_add.mp h).2]
      by_cases hj : j = id
      · rw [if_pos hj, if_pos hj, List.map_append]
        rfl
      · rw [if_neg hj, if_neg hj, List.append_nil]
  | remove login =>
      rw [loginsOf_remove id j login (changed_remove.mp h).2]
      by_cases hj : j = id
      · rw [if_pos hj, if_pos hj]
        exact (List.filter_map (p := fun l => decide (l ≠ m.loginKey login))
          (f := m.loginKey)).symm
      · rw [if_neg hj, if_neg hj]

/-- The change is one that the account allows. -/
theorem can_changed {id : Nat} {change : LoginChange} {logins : List IdentityUserLogin}
    (h : a.store.changed m.toHost id change = some logins) :
    (change.map m.loginKey).can ((a.loginsOf id).map m.loginKey) := by
  cases change with
  | keep => trivial
  | add login =>
      obtain ⟨⟨-, hfree⟩, -⟩ := changed_add.mp h
      intro hmem
      obtain ⟨l, hl, his⟩ := mem_logins_iff.mp hmem
      rw [hfree l hl] at his
      cases his
  | remove login => exact mem_logins_iff.mpr (changed_remove.mp h).1

theorem intact_update (ha : a.Intact m) {id : Nat} {change : LoginChange}
    {logins : List IdentityUserLogin} (hid : ∃ u ∈ a.store.users, u.id = id)
    (h : a.store.changed m.toHost id change = some logins) (passwordHash : Option Utf16) :
    Accounts.Intact m { a.setPasswordHash id passwordHash with
      store := { a.store with logins := logins } } := by
  have hhashed : ∀ j, (a.setPasswordHash id passwordHash).passwordHash j ≠ none →
      ∃ u ∈ a.store.users, u.id = j := by
    intro j hj
    by_cases heq : j = id
    · rw [heq]
      exact hid
    · have hsame : (a.setPasswordHash id passwordHash).passwordHash j = a.passwordHash j :=
        if_neg heq
      exact ha.hashed j (hsame ▸ hj)
  cases change with
  | keep =>
      cases h
      exact ⟨ha.ids, ha.logins, ha.linked, hhashed⟩
  | add login =>
      obtain ⟨⟨-, hfree⟩, rfl⟩ := changed_add.mp h
      refine ⟨ha.ids, ?_, fun l hl => ?_, hhashed⟩
      · show ((a.store.logins ++ [_]).map fun l : IdentityUserLogin =>
          (l.userId, m.loginKey l.login)).Nodup
        rw [List.map_append, List.nodup_append]
        refine ⟨ha.logins, List.nodup_singleton _, fun k hk k' hk' hkk => ?_⟩
        -- a row with the key of the new one would have kept it out
        obtain ⟨l, hl, rfl⟩ := List.mem_map.mp hk
        obtain ⟨huser, hkey⟩ := Prod.mk.inj (hkk.trans (List.mem_singleton.mp hk'))
        have his : Store.isLogin m.toHost id login l = true := isLogin_iff.mpr ⟨huser, hkey⟩
        rw [hfree l hl] at his
        cases his
      · rcases List.mem_append.mp hl with hl | hl
        · exact ha.linked l hl
        · rw [List.mem_singleton.mp hl]
          exact hid
  | remove login =>
      obtain ⟨-, rfl⟩ := changed_remove.mp h
      exact ⟨ha.ids, ha.logins.sublist (List.filter_sublist.map _),
        fun l hl => ha.linked l (List.mem_filter.mp hl).1, hhashed⟩

theorem directory_update {id : Nat} {change : LoginChange} {logins : List IdentityUserLogin}
    (h : a.store.changed m.toHost id change = some logins) (passwordHash : Option Utf16) :
    Accounts.directory m { a.setPasswordHash id passwordHash with
        store := { a.store with logins := logins } }
      = (a.directory m).apply (.save id passwordHash (change.map m.loginKey)) := by
  refine directory_alter rfl rfl (fun u hu => ?_) (fun u hu => ?_)
  · -- the account that is updated
    have hhash : (a.setPasswordHash id passwordHash).passwordHash u.id = passwordHash :=
      if_pos hu
    have hlogins := loginsOf_changed h u.id
    rw [if_pos hu] at hlogins
    show Holder.mk _ ((a.setPasswordHash id passwordHash).passwordHash u.id) _ = _
    rw [hhash]
    exact congrArg (Holder.mk _ passwordHash) hlogins
  · -- and any other
    have hhash : (a.setPasswordHash id passwordHash).passwordHash u.id = a.passwordHash u.id :=
      if_neg hu
    have hlogins := loginsOf_changed h u.id
    rw [if_neg hu] at hlogins
    show Holder.mk _ ((a.setPasswordHash id passwordHash).passwordHash u.id) _ = _
    rw [hhash]
    exact congrArg (Holder.mk _ (a.passwordHash u.id)) hlogins

end Accounts

/-! ## What a statement does -/

section Statements

variable {m : ApplicationUserManager} {a : Accounts} {l : Session}

/-- A statement is the act that its answer says, and keeps the accounts intact. -/
abbrev Answers (m : ApplicationUserManager) (o : ManagerOp) (a : Accounts)
    (q : Except Exn o.Res × ManagerWorld) : Prop :=
  Registry.machine.Answers (Accounts.directory m) (Accounts.Intact m) (act m o) a q

theorem answers_nothing (ha : a.Intact m) {o : ManagerOp} {q : Except Exn o.Res}
    {a' : Accounts} (h : ∀ x, q = .ok x → act m o x = none)
    (husers : a'.store.users = a.store.users) (hlogins : a'.store.logins = a.store.logins)
    (hguid : a'.store.nextGuid = a.store.nextGuid) (hhash : a'.passwordHash = a.passwordHash) :
    Answers m o a (q, (a', l)) := by
  have hintact : a'.Intact m := ⟨by rw [husers]; exact ha.ids, by rw [hlogins]; exact ha.logins,
    by rw [husers, hlogins]; exact ha.linked, by rw [husers, hhash]; exact ha.hashed⟩
  have hmoves : Registry.machine.Moves (Accounts.directory m) (Accounts.Intact m) a none a' :=
    Machine.moves_nothing hintact (directory_congr husers hlogins hguid hhash)
  cases q with
  | error e => exact hmoves
  | ok x =>
      show Registry.machine.Moves _ _ a (act m o x) a'
      rw [h x rfl]
      exact hmoves

/-- What is found out is so. -/
theorem answers_look (ha : a.Intact m) {o : ManagerOp} {x : o.Res}
    (h : ∀ e, act m o x = some e → (a.directory m).can e ∧ (a.directory m).apply e
      = a.directory m) : Answers m o a (.ok x, (a, l)) := by
  show Registry.machine.Moves _ _ a (act m o x) a
  cases he : act m o x with
  | none => exact Machine.moves_nothing ha rfl
  | some e => exact Machine.moves_one ha (h e he).1 (h e he).2.symm

theorem answers_insertUser (ha : a.Intact m) {user : ApplicationUser}
    (hnumber : user.id < a.store.nextGuid) (passwordHash : Option Utf16) :
    Answers m (.store (.insertUser user passwordHash)) a
      (manage m (.store (.insertUser user passwordHash)) (a, l)) := by
  unfold manage
  simp only [perform_insertUser]
  by_cases htakes : a.store.takes m.toHost user = true
  · obtain ⟨-, hfree⟩ := takes_iff.mp htakes
    have hids : ∀ u ∈ a.store.users, u.id ≠ user.id := fun u hu => (hfree u hu).1
    simp only [if_pos htakes]
    refine Machine.moves_one (intact_insert ha hids _) ⟨hnumber, ?_, fun j h hj => ?_⟩
      (directory_insert ha hids _)
    · show (a.findUser user.id).map _ = none
      rw [findUser_eq_none.mpr hids]
      rfl
    · obtain ⟨u, hu, -, rfl⟩ := (holder_eq_some ha).mp hj
      exact (hfree u hu).2
  · simp only [if_neg htakes]
    exact Machine.moves_nothing ha rfl

theorem answers_updateUser (ha : a.Intact m) (userId : Nat) (passwordHash : Option Utf16)
    (change : LoginChange) :
    Answers m (.store (.updateUser userId passwordHash change)) a
      (manage m (.store (.updateUser userId passwordHash change)) (a, l)) := by
  unfold manage
  simp only [perform_updateUser]
  cases hs : a.store.updated m.toHost userId change with
  | none => exact Machine.moves_nothing ha rfl
  | some s =>
      obtain ⟨⟨u, hu, hid⟩, logins, hlogins, rfl⟩ := updated_eq_some.mp hs
      have hcan := can_changed hlogins
      rw [← hid] at hcan
      exact Machine.moves_one (intact_update ha ⟨u, hu, hid⟩ hlogins _)
        ⟨_, (holder_eq_some ha).mpr ⟨u, hu, hid, rfl⟩, hcan⟩ (directory_update hlogins _)

/-- Whoever is found has the login, and if nobody is, nobody has it. -/
theorem answers_findLogin (ha : a.Intact m) (login : UserLoginInfo) :
    Answers m (.store (.findLogin login)) a (manage m (.store (.findLogin login)) (a, l)) := by
  refine answers_look ha fun e he => ?_
  cases he
  have hopens : ∀ {id}, (a.directory m).OpensWith (m.loginKey login) id
      ↔ ∃ row ∈ a.store.logins, row.userId = id ∧ m.loginKey row.login = m.loginKey login := by
    intro id
    constructor
    · intro h
      obtain ⟨h, hh, hmem⟩ := h
      obtain ⟨u, hu, rfl, rfl⟩ := (holder_eq_some ha).mp hh
      obtain ⟨row, hrow, his⟩ := mem_logins_iff.mp hmem
      exact ⟨row, hrow, isLogin_iff.mp his⟩
    · intro h
      obtain ⟨row, hrow, rfl, hkey⟩ := h
      obtain ⟨u, hu, hid⟩ := ha.linked row hrow
      refine ⟨a.holderOf m u, (holder_eq_some ha).mpr ⟨u, hu, hid, rfl⟩, mem_logins_iff.mpr ?_⟩
      exact ⟨row, hrow, isLogin_iff.mpr ⟨hid.symm, hkey⟩⟩
  refine ⟨⟨fun id hid => ?_, fun hnone id => ?_⟩, rfl⟩
  · obtain ⟨u, hu, rfl⟩ := Option.map_eq_some_iff.mp hid
    obtain ⟨row, hrow, hfound⟩ := Option.bind_eq_some_iff.mp hu
    have hid' : row.userId = u.id := (Accounts.id_of_findUser (a := a) hfound).symm
    have hkey := List.find?_some hrow
    exact hopens.mpr ⟨row, List.mem_of_find?_eq_some hrow, hid', of_decide_eq_true hkey⟩
  · intro h
    obtain ⟨row, hrow, -, hkey⟩ := hopens.mp h
    -- the row that is found need not be this one, but it is somebody's
    obtain ⟨row', hrow'⟩ : ∃ row', a.store.logins.find? (fun row =>
        m.loginKey row.login = m.loginKey login) = some row' :=
      Option.isSome_iff_exists.mp (List.find?_isSome.mpr ⟨row, hrow, decide_eq_true hkey⟩)
    obtain ⟨u, hu, hid⟩ := ha.linked row' (List.mem_of_find?_eq_some hrow')
    have hfound : a.store.users.find? (fun u => u.id = row'.userId) = some u :=
      (findUser_eq_some ha).mpr ⟨hu, hid⟩
    rw [Option.map_eq_none_iff, Option.bind_eq_none_iff] at hnone
    have hmissing := hnone row' hrow'
    rw [hfound] at hmissing
    cases hmissing

/-- Whoever is found has the name and the password. -/
theorem answers_findAsync (ha : a.Intact m) (hsound : (a.directory m).Sound)
    (userName password : Utf16) :
    Answers m (.findAsync userName password) a
      (manage m (.findAsync userName password) (a, l)) := by
  refine answers_look ha fun e he => ?_
  cases he
  refine ⟨fun id => ?_, rfl⟩
  have hname : ∀ {u : ApplicationUser}, m.equals u.userName userName = true
      ↔ u.userName.map m.upper = some (m.upper userName) := by
    intro u
    exact decide_eq_true_iff
  rw [Option.map_eq_some_iff]
  constructor
  · intro hex
    obtain ⟨u, hu, rfl⟩ := hex
    obtain ⟨hfound, hhash⟩ := Option.filter_eq_some_iff.mp hu
    have hthis := List.find?_some hfound
    exact ⟨a.holderOf m u, (holder_eq_some ha).mpr ⟨u, List.mem_of_find?_eq_some hfound, rfl, rfl⟩,
      hname.mp hthis, of_decide_eq_true hhash⟩
  · intro hex
    obtain ⟨h, hh, hthis, hpassword⟩ := hex
    obtain ⟨u, hmem, rfl, rfl⟩ := (holder_eq_some ha).mp hh
    -- whoever is found by the name has it, so it is the same account
    obtain ⟨u', hu'⟩ : ∃ u', a.store.users.find? (fun u => m.equals u.userName userName)
        = some u' :=
      Option.isSome_iff_exists.mp (List.find?_isSome.mpr ⟨u, hmem, hname.mpr hthis⟩)
    have hthis' := List.find?_some hu'
    have hid : u'.id = u.id :=
      hsound.names _ _ _ _ ((holder_eq_some ha).mpr ⟨u', List.mem_of_find?_eq_some hu', rfl, rfl⟩)
        hh ((hname.mp hthis').trans hthis.symm)
    refine ⟨u', Option.filter_eq_some_iff.mpr ⟨hu', decide_eq_true ?_⟩, hid⟩
    rw [hid]
    exact hpassword

/-- What is loaded is what there is. -/
theorem answers_loadUser (ha : a.Intact m) (userId : Nat) :
    Answers m (.loadUser userId) a (manage m (.loadUser userId) (a, l)) := by
  refine answers_look ha fun e he => ?_
  obtain ⟨loaded, hloaded, rfl⟩ := Option.map_eq_some_iff.mp he
  obtain ⟨hfound, hhash⟩ := a.of_loadUser hloaded
  refine ⟨⟨_, Option.map_eq_some_iff.mpr ⟨_, hfound, rfl⟩, ?_⟩, rfl⟩
  rw [hhash]
  exact congrArg a.passwordHash loaded.key

/-- **Every statement** is the act it says, and the act can be done. A user is inserted under
an id that has been given out. -/
theorem answers_manage (ha : a.Intact m) (hsound : (a.directory m).Sound) {o : ManagerOp}
    (hnumber : ∀ user passwordHash, o = .store (.insertUser user passwordHash) →
      user.id < a.store.nextGuid) : Answers m o a (manage m o (a, l)) := by
  cases o with
  | store o =>
      cases o with
      | newGuid =>
          have hintact : Accounts.Intact m
              { a with store := { a.store with nextGuid := a.store.nextGuid + 1 } } :=
            ⟨ha.ids, ha.logins, ha.linked, ha.hashed⟩
          exact Machine.moves_one hintact rfl rfl
      | insertUser user passwordHash => exact answers_insertUser ha (hnumber _ _ rfl) passwordHash
      | updateUser userId passwordHash change =>
          exact answers_updateUser ha userId passwordHash change
      | findLogin login => exact answers_findLogin ha login
      | savePatient p =>
          unfold manage
          simp only [perform_savePatient]
          split
          · exact answers_nothing ha (fun _ _ => rfl) rfl rfl rfl rfl
          · exact answers_nothing ha (fun _ _ => rfl) rfl rfl rfl rfl
      | saveMeasurement p measurement =>
          unfold manage
          simp only [perform_saveMeasurement]
          split
          · exact answers_nothing ha (fun _ _ => rfl) rfl rfl rfl rfl
          · exact answers_nothing ha (fun _ _ => rfl) rfl rfl rfl rfl
      | _ => exact answers_nothing ha (fun _ _ => rfl) rfl rfl rfl rfl
  | loadUser userId => exact answers_loadUser ha userId
  | loadLogins userId => exact answers_nothing ha (fun _ _ => rfl) rfl rfl rfl rfl
  | findAsync userName password => exact answers_findAsync ha hsound userName password

theorem answers_manageExec (ha : a.Intact m) (hsound : (a.directory m).Sound) {o : ManagerOp}
    (hnumber : ∀ user passwordHash, o = .store (.insertUser user passwordHash) →
      user.id < a.store.nextGuid) : Answers m o a (manageExec m o (a, l)) := by
  rcases manageExec_cases m o a l with ⟨fs, hx⟩ | ⟨fs, hx⟩
  · rw [hx]
    exact answers_manage ha hsound hnumber
  · rw [hx]
    exact Machine.moves_nothing ha rfl

end Statements

end TacPac.Web
