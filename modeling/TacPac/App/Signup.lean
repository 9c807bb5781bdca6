import TacPac.App.Phone

/-!
# Signing up

`FirebaseHelper.signup` is three callbacks deep: find a physician by the typed code,
create the account, and then, without waiting for either, write the profile and the
link to the physician and open the start screen. Nothing that has been done is undone
when a later step fails (`signup_steps`), so a sign-up leaves all or nothing exactly
under the condition given there.
-/

namespace TacPac.App

open TacPac.Lib

namespace Db

/-- The children of `Users` whose `code` is the one typed. -/
def withCode (db : Db) (code : Utf16) : List (Uid × UserRecord) :=
  db.users.filter (fun r => r.2.code = some code)

/-- `createUser`, when it succeeds; the new user is `db.nextUid`. -/
def createUser (email password : Utf16) (db : Db) : Db where
  accounts := db.accounts ++ [⟨db.nextUid, email, password⟩]
  users := db.users
  physicians := db.physicians
  patients := db.patients
  nextUid := db.nextUid + 1
  nextAutoId := db.nextAutoId
  usersKeys := db.usersKeys
  usersBound := fun r hr => Nat.lt_succ_of_lt (db.usersBound r hr)
  linksBound := fun l hl => Nat.lt_succ_of_lt (db.linksBound l hl)
  patientsBound := db.patientsBound

/-- `Users/<uid>` set to `record`. -/
def setProfile (uid : Uid) (record : UserRecord) (db : Db) : Db where
  accounts := db.accounts
  users := db.users.filter (fun r => r.1 ≠ uid) ++ [(uid, record)]
  physicians := db.physicians
  patients := db.patients
  nextUid := max db.nextUid (uid + 1)
  nextAutoId := db.nextAutoId
  usersKeys := by
    rw [List.map_append, List.nodup_append]
    refine ⟨db.usersKeys.sublist (List.filter_sublist.map Prod.fst), List.nodup_singleton _, ?_⟩
    intro a ha b hb
    obtain ⟨r, hr, rfl⟩ := List.mem_map.mp ha
    rw [List.map_singleton, List.mem_singleton] at hb
    rw [hb]
    simpa using (List.mem_filter.mp hr).2
  usersBound := by
    intro r hr
    rcases List.mem_append.mp hr with hr | hr
    · exact lt_of_lt_of_le (db.usersBound r (List.mem_filter.mp hr).1) (le_max_left _ _)
    · rw [List.mem_singleton.mp hr]
      exact lt_of_lt_of_le (Nat.lt_succ_self uid) (le_max_right _ _)
  linksBound := fun l hl => lt_of_lt_of_le (db.linksBound l hl) (le_max_left _ _)
  patientsBound := db.patientsBound

/-- `Physicians/<doctor>/<uid>` set. -/
def setLink (doctor uid : Uid) (db : Db) : Db where
  accounts := db.accounts
  users := db.users
  physicians :=
    if (doctor, uid) ∈ db.physicians then db.physicians else db.physicians ++ [(doctor, uid)]
  patients := db.patients
  nextUid := max db.nextUid (uid + 1)
  nextAutoId := db.nextAutoId
  usersKeys := db.usersKeys
  usersBound := fun r hr => lt_of_lt_of_le (db.usersBound r hr) (le_max_left _ _)
  linksBound := by
    intro l hl
    split at hl
    · exact lt_of_lt_of_le (db.linksBound l hl) (le_max_left _ _)
    · rcases List.mem_append.mp hl with hl | hl
      · exact lt_of_lt_of_le (db.linksBound l hl) (le_max_left _ _)
      · rw [List.mem_singleton.mp hl]
        exact lt_of_lt_of_le (Nat.lt_succ_self uid) (le_max_right _ _)
  patientsBound := db.patientsBound

/-- A link of a user who has none yet. -/
theorem setLink_physicians {doctor uid : Uid} {db : Db} (h : ∀ l ∈ db.physicians, l.2 ≠ uid) :
    (db.setLink doctor uid).physicians = db.physicians ++ [(doctor, uid)] :=
  if_neg fun hmem => h _ hmem rfl

theorem setProfile_self (uid : Uid) (record : UserRecord) (db : Db) :
    valueUnder (db.setProfile uid record).users uid = some record :=
  valueUnder_mem (db.setProfile uid record).usersKeys
    (List.mem_append_right _ List.mem_cons_self)

theorem setProfile_other {uid u : Uid} (record : UserRecord) (db : Db) (h : u ≠ uid) :
    valueUnder (db.setProfile uid record).users u = valueUnder db.users u := by
  have hlast : ¬ uid = u := fun e => h e.symm
  unfold valueUnder setProfile
  rw [List.find?_append, List.find?_filter]
  have hpred : (fun r : Uid × UserRecord => decide (decide (r.1 ≠ uid) = true
      ∧ decide (r.1 = u) = true)) = fun r => decide (r.1 = u) := by
    funext r
    by_cases hr : r.1 = u
    · simp [hr, h]
    · simp [hr]
  rw [hpred]
  simp [hlast]

end Db

/-! ## The callbacks -/

/-- The callback of the code query: `snap.allKeys[0]`, if the snapshot has any keys. -/
def codeDone (allKeys : List Uid) : Option Uid := allKeys[0]?

/-- The profile that `createUser` writes. -/
def profileOf (model : SignupModel) : UserRecord :=
  ⟨none, some model.firstName, some model.lastName, some model.dob⟩

/-- The callback of `createUser`, for the user `uid`. The two writes are sent off; whether
they succeed is not asked. -/
def createDone (model : SignupModel) (doctorId uid : Uid) (profile link : Bool) (db : Db)
    (p : Phone) : Db × Phone :=
  let p := { p with user := some uid }
  let db := if profile then db.setProfile uid (profileOf model) else db
  let db := if link then db.setLink doctorId uid else db
  (db, p.openStartScreen)

/-- What becomes of the remote calls of one sign-up. -/
structure Remote where
  /-- The order in which the answer's keys are enumerated; `none` if there is no answer. -/
  code : Option (List Uid)
  created : Bool
  profile : Bool
  link : Bool

/-- `FirebaseHelper.signup`, from the button to its last callback. -/
def signup (model : SignupModel) (r : Remote) (db : Db) (p : Phone) : Db × Phone :=
  match r.code.bind codeDone with
  | none => (db, p)
  | some doctorId =>
      if r.created then
        createDone model doctorId db.nextUid r.profile r.link
          (db.createUser model.email model.password) p
      else (db, p)

/-- A possible outcome of the remote calls: an answer has the keys the query asks for. -/
def Remote.Possible (r : Remote) (model : SignupModel) (db : Db) : Prop :=
  ∀ allKeys, r.code = some allKeys → allKeys.Perm ((db.withCode model.code).map Prod.fst)

/-! ## How far a sign-up gets -/

/-- A sign-up that ends before there is an account. -/
def Stops (r : Remote) (model : SignupModel) (db : Db) : Prop :=
  r.code = none ∨ db.withCode model.code = [] ∨ r.created = false

theorem codeDone_cases {r : Remote} {model : SignupModel} {db : Db} (h : r.Possible model db) :
    (r.code.bind codeDone = none ∧ (r.code = none ∨ db.withCode model.code = []))
    ∨ ∃ doctorId, r.code.bind codeDone = some doctorId
        ∧ doctorId ∈ (db.withCode model.code).map Prod.fst ∧ r.code ≠ none
        ∧ db.withCode model.code ≠ [] := by
  rcases hr : r.code with _ | allKeys
  · exact Or.inl ⟨rfl, Or.inl rfl⟩
  · have hperm := h allKeys hr
    rcases allKeys with _ | ⟨doctorId, rest⟩
    · refine Or.inl ⟨rfl, Or.inr ?_⟩
      exact List.map_eq_nil_iff.mp (List.nil_perm.mp hperm)
    · have hmem : doctorId ∈ (db.withCode model.code).map Prod.fst :=
        hperm.mem_iff.mp List.mem_cons_self
      refine Or.inr ⟨doctorId, rfl, hmem, by simp, fun hnil => ?_⟩
      rw [hnil] at hmem
      exact absurd hmem (by simp)

/-- What a sign-up has done whose account was created. -/
structure SignedIn (model : SignupModel) (r : Remote) (doctorId : Uid) (db : Db) (db' : Db)
    (p' : Phone) : Prop where
  accounts : db'.accounts = db.accounts ++ [⟨db.nextUid, model.email, model.password⟩]
  user : p'.user = some db.nextUid
  screen : p'.root = .start .history .history
  profile : valueUnder db'.users db.nextUid = if r.profile then some (profileOf model) else none
  others : ∀ u, u ≠ db.nextUid → valueUnder db'.users u = valueUnder db.users u
  links : db'.physicians = db.physicians ++ if r.link then [(doctorId, db.nextUid)] else []

theorem signedIn_createDone (model : SignupModel) (r : Remote) (doctorId : Uid) (db : Db)
    (p : Phone) :
    SignedIn model r doctorId db
      (createDone model doctorId db.nextUid r.profile r.link
        (db.createUser model.email model.password) p).1
      (createDone model doctorId db.nextUid r.profile r.link
        (db.createUser model.email model.password) p).2 := by
  have hnolink : ∀ l ∈ db.physicians, l.2 ≠ db.nextUid := fun l hl => ne_of_lt (db.linksBound l hl)
  have hnoprofile : valueUnder db.users db.nextUid = none := by
    unfold valueUnder
    rw [Option.map_eq_none_iff]
    refine List.find?_eq_none.mpr fun c hc => ?_
    have hlt := db.usersBound c hc
    simp only [decide_eq_true_eq]
    exact ne_of_lt hlt
  -- which of the two writes succeed
  obtain ⟨code, created, profile, link⟩ := r
  cases profile <;> cases link
  · exact ⟨rfl, rfl, rfl, hnoprofile, fun u _ => rfl, (List.append_nil _).symm⟩
  · exact ⟨rfl, rfl, rfl, hnoprofile, fun u _ => rfl, Db.setLink_physicians hnolink⟩
  · exact ⟨rfl, rfl, rfl, Db.setProfile_self _ _ _, fun u hu => Db.setProfile_other _ _ hu,
      (List.append_nil _).symm⟩
  · exact ⟨rfl, rfl, rfl, Db.setProfile_self _ _ _, fun u hu => Db.setProfile_other _ _ hu,
      Db.setLink_physicians hnolink⟩

/-- All of it: an account with its profile, linked to the one physician who has the code. -/
structure Complete (model : SignupModel) (db db' : Db) (p' : Phone) : Prop where
  accounts : db'.accounts = db.accounts ++ [⟨db.nextUid, model.email, model.password⟩]
  profile : valueUnder db'.users db.nextUid = some (profileOf model)
  link : ∃ doctorId, (db.withCode model.code).map Prod.fst = [doctorId]
    ∧ db'.physicians = db.physicians ++ [(doctorId, db.nextUid)]
  screen : p'.root = .start .history .history

/-- None of it. -/
structure Untouched (db db' : Db) (p p' : Phone) : Prop where
  accounts : db'.accounts = db.accounts
  users : db'.users = db.users
  physicians : db'.physicians = db.physicians
  user : p'.user = p.user

theorem complete_or_untouched {model : SignupModel} {r : Remote} {doctorId : Uid} {db db' : Db}
    {p p' : Phone} (h : SignedIn model r doctorId db db' p')
    (hd : doctorId ∈ (db.withCode model.code).map Prod.fst) :
    (Complete model db db' p' ∨ Untouched db db' p p')
      ↔ r.profile = true ∧ r.link = true ∧ (db.withCode model.code).length = 1 := by
  constructor
  · intro hdone
    rcases hdone with hall | hnone
    · have hprofile := h.profile
      rw [hall.profile] at hprofile
      obtain ⟨doctor, hone, hlinks⟩ := hall.link
      rw [h.links] at hlinks
      have hlen := congrArg List.length hone
      rw [List.length_map] at hlen
      refine ⟨?_, ?_, hlen⟩
      · by_contra hne
        rw [if_neg hne] at hprofile
        cases hprofile
      · by_contra hne
        have hnil := List.append_cancel_left hlinks
        rw [if_neg hne] at hnil
        cases hnil
    · -- the account is there in any case
      have hacc := h.accounts.symm.trans hnone.accounts
      exact absurd hacc (by simp)
  · intro hcond
    obtain ⟨hprofile, hlink, hone⟩ := hcond
    refine Or.inl ⟨h.accounts, ?_, ⟨doctorId, ?_, ?_⟩, h.screen⟩
    · rw [h.profile, if_pos hprofile]
    · obtain ⟨c, hc⟩ := List.length_eq_one_iff.mp hone
      rw [hc] at hd ⊢
      rw [List.map_singleton, List.mem_singleton] at hd
      rw [List.map_singleton, hd]
    · rw [h.links, if_pos hlink]

/-- **What a sign-up leaves.** Nothing if it stops before the account; otherwise the
account, the session and the start screen, a profile if that write succeeds, and if
the other does a link to whichever record with the code is enumerated first. That is
all or nothing exactly if both succeed and there is only one such record. -/
theorem signup_steps (model : SignupModel) (r : Remote) (db : Db) (p : Phone)
    (h : r.Possible model db) :
    (Stops r model db → signup model r db p = (db, p))
    ∧ (¬ Stops r model db → ∃ doctorId, r.code.bind codeDone = some doctorId
        ∧ doctorId ∈ (db.withCode model.code).map Prod.fst
        ∧ SignedIn model r doctorId db (signup model r db p).1 (signup model r db p).2)
    ∧ (Complete model db (signup model r db p).1 (signup model r db p).2
        ∨ Untouched db (signup model r db p).1 p (signup model r db p).2
      ↔ Stops r model db
        ∨ (r.profile = true ∧ r.link = true ∧ (db.withCode model.code).length = 1)) := by
  have hself : Untouched db db p p := ⟨rfl, rfl, rfl, rfl⟩
  rcases codeDone_cases h with ⟨hnone, hstops⟩ | ⟨doctorId, hsome, hmem, hans, hcode⟩
  · -- no physician is found
    have hrun : signup model r db p = (db, p) := by unfold signup; rw [hnone]
    have hstop : Stops r model db := hstops.imp id Or.inl
    rw [hrun]
    exact ⟨fun _ => rfl, fun hn => absurd hstop hn, fun _ => Or.inl hstop,
      fun _ => Or.inr hself⟩
  · by_cases hcreated : r.created = true
    · have hrun : signup model r db p = createDone model doctorId db.nextUid r.profile r.link
          (db.createUser model.email model.password) p := by
        unfold signup
        rw [hsome]
        exact if_pos hcreated
      have hgo : ¬ Stops r model db := by
        intro hs
        rcases hs with hs | hs | hs
        · exact hans hs
        · exact hcode hs
        · rw [hcreated] at hs
          cases hs
      have hdone := signedIn_createDone model r doctorId db p
      rw [hrun]
      refine ⟨fun hs => absurd hs hgo, fun _ => ⟨doctorId, hsome, hmem, hdone⟩, ?_⟩
      rw [complete_or_untouched hdone hmem]
      exact ⟨Or.inr, fun hs => hs.resolve_left hgo⟩
    · -- the account is turned down
      have hrun : signup model r db p = (db, p) := by
        unfold signup
        rw [hsome]
        exact if_neg hcreated
      have hstop : Stops r model db := Or.inr (Or.inr (Bool.eq_false_iff.mpr hcreated))
      rw [hrun]
      exact ⟨fun _ => rfl, fun hn => absurd hstop hn, fun _ => Or.inl hstop,
        fun _ => Or.inr hself⟩

/-- One physician, with a code, and somebody who types it. -/
def clinic : Db := Db.empty.setProfile 0 ⟨some (utf16 "1234"), none, none, none⟩

/-- Ann, with the code of a physician. -/
def signupAnn : SignupModel :=
  ⟨utf16 "ann@jhu.edu", utf16 "secret", utf16 "Ann", utf16 "Lee", utf16 "Jan 1, 1990",
    utf16 "1234"⟩

theorem signup_steps_ann :
    let w := signup signupAnn ⟨some [0], true, true, true⟩ clinic (Phone.launch none)
    Complete signupAnn clinic w.1 w.2 ∨ Untouched clinic w.1 (Phone.launch none) w.2 := by
  have hpossible : Remote.Possible ⟨some [0], true, true, true⟩ signupAnn clinic := by
    intro allKeys hkeys
    cases hkeys
    decide
  exact (signup_steps signupAnn ⟨some [0], true, true, true⟩ clinic (Phone.launch none)
    hpossible).2.2.mpr (Or.inr ⟨rfl, rfl, by decide⟩)

/-- The second write fails: an account, and no physician. -/
theorem signup_unlinked :
    ¬ ∀ (model : SignupModel) (r : Remote) (db : Db) (p : Phone), r.Possible model db →
      Complete model db (signup model r db p).1 (signup model r db p).2
        ∨ Untouched db (signup model r db p).1 p (signup model r db p).2 := by
  intro h
  have hpossible : Remote.Possible ⟨some [0], true, true, false⟩ signupAnn clinic := by
    intro allKeys hkeys
    cases hkeys
    decide
  rcases h signupAnn ⟨some [0], true, true, false⟩ clinic (Phone.launch none) hpossible
    with hall | hnone
  · obtain ⟨doctorId, -, hlinks⟩ := hall.link
    cases hlinks
  · exact absurd hnone.accounts (by decide)

end TacPac.App
