import TacPac.Lib.Keyed
import TacPac.Lib.Utf16

/-!
# The app's database

What `FirebaseHelper.swift` keeps in Firebase: the accounts, and the trees `Users`,
`Physicians` and `Patients`. User ids and the keys of `childByAutoId` are counters,
so that a new one differs from, and the latter is larger than, all there are.
-/

namespace TacPac.App

open TacPac.Lib

/-- `Reading`. The concentration is the bit pattern of the `Double`. -/
structure Reading where
  concentration : UInt64
  time : Utf16
  deriving DecidableEq

/-- The id of an account. -/
abbrev Uid : Type := Nat

/-- A child of `Users`: a physician's carries a code, a patient's does not. -/
structure UserRecord where
  code : Option Utf16
  firstName : Option Utf16
  lastName : Option Utf16
  dob : Option Utf16
  deriving DecidableEq

/-- An account of Firebase Auth. -/
structure Account where
  uid : Uid
  email : Utf16
  password : Utf16
  deriving DecidableEq

/-- All that Firebase keeps. -/
structure Db where
  accounts : List Account
  users : List (Uid × UserRecord)
  /-- A link `Physicians/<doctor>/<patient>`. -/
  physicians : List (Uid × Uid)
  patients : Uid → Node Nat Reading
  nextUid : Uid
  nextAutoId : Nat
  usersKeys : (users.map Prod.fst).Nodup
  usersBound : ∀ r ∈ users, r.1 < nextUid
  linksBound : ∀ l ∈ physicians, l.2 < nextUid
  patientsBound : ∀ uid, ∀ c ∈ (patients uid).children, c.1 < nextAutoId

namespace Db

/-- A database nobody has used. -/
def empty : Db where
  accounts := []
  users := []
  physicians := []
  patients _ := Node.empty
  nextUid := 0
  nextAutoId := 0
  usersKeys := List.nodup_nil
  usersBound := by simp
  linksBound := by simp
  patientsBound := by simp [Node.empty]

/-- `Patients/<uid>`, as it was stored. -/
def stored (db : Db) (uid : Uid) : List Reading := (db.patients uid).children.map Prod.snd

/-- `FirebaseHelper.saveReading`, of the account `uid`. -/
def saveReading (uid : Uid) (read : Reading) (db : Db) : Db where
  accounts := db.accounts
  users := db.users
  physicians := db.physicians
  patients u :=
    if u = uid then (db.patients uid).push db.nextAutoId read (db.patientsBound uid)
    else db.patients u
  nextUid := db.nextUid
  nextAutoId := db.nextAutoId + 1
  usersKeys := db.usersKeys
  usersBound := db.usersBound
  linksBound := db.linksBound
  patientsBound := by
    intro u c hc
    split at hc
    · rw [Node.push_children] at hc
      rcases List.mem_append.mp hc with hc | hc
      · have hlt := db.patientsBound uid c hc
        omega
      · rw [List.mem_singleton.mp hc]
        exact Nat.lt_succ_self _
    · have hlt := db.patientsBound u c hc
      omega

theorem stored_saveReading (uid u : Uid) (read : Reading) (db : Db) :
    (db.saveReading uid read).stored u = db.stored u ++ if u = uid then [read] else [] := by
  unfold stored saveReading
  by_cases h : u = uid
  · simp [h]
  · simp [h]

/-- Readings of any users, saved one after another. -/
def saveReadings (saves : List (Uid × Reading)) (db : Db) : Db :=
  saves.foldl (fun db s => db.saveReading s.1 s.2) db

/-- **Readings keep apart**: a user's are those the user has saved, in that order. -/
theorem stored_saveReadings (saves : List (Uid × Reading)) (u : Uid) : ∀ db : Db,
    (db.saveReadings saves).stored u
      = db.stored u ++ (saves.filter (fun s => s.1 = u)).map Prod.snd := by
  induction saves with
  | nil =>
      intro db
      exact (List.append_nil _).symm
  | cons s saves ih =>
      intro db
      show ((db.saveReading s.1 s.2).saveReadings saves).stored u = _
      rw [ih, stored_saveReading, List.append_assoc]
      by_cases h : u = s.1
      · simp [h]
      · have h' : ¬ s.1 = u := fun e => h e.symm
        simp [h, h']

end Db

end TacPac.App
