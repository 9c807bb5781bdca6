import TacPac.Lib.Proc
import TacPac.Lib.Tracker
import TacPac.Lib.Utf16

/-!
# The GroupMe bot: data, and what a request can do to the world

`Models/IdentityModels.cs`, `Models/GroupmeBindingModels.cs`, and the calls
`GroupmeController.msg` makes outside itself: queries and writes through one
`GroupmeDbContext`, and posts to the GroupMe API.

Every reference-typed field of the callback payload is optional, because
`JsonConvert` leaves it null when the body does not mention it. A `Fault` list
decides, call by call, what the environment does to a request: it is how "any
step may fail" is said.
-/

namespace TacPac.Groupme

open TacPac.Lib

/-- `Phikeia`, a row of the balance table. A null `Name` column is the empty
string here: the handler only ever concatenates or overwrites it. -/
structure Phikeia where
  id : Nat
  groupmeId : Int64
  name : Utf16
  points : Int32
  deriving DecidableEq

/-- What a save leaves in a column: what is stored, unless the session has changed it. -/
def changed {α : Type} [DecidableEq α] (original current stored : α) : α :=
  if original = current then stored else current

theorem changed_same {α : Type} [DecidableEq α] (o s : α) : changed o o s = s := if_pos rfl

theorem changed_self {α : Type} [DecidableEq α] (o c : α) : changed o c o = c := by
  unfold changed
  split
  · assumption
  · rfl

instance : Entity Phikeia where
  key := Phikeia.id
  withKey k r := { r with id := k }
  write o c s := ⟨s.id, changed o.groupmeId c.groupmeId s.groupmeId,
    changed o.name c.name s.name, changed o.points c.points s.points⟩
  key_withKey _ _ := rfl
  key_write _ _ _ := rfl
  write_same o s := by simp only [changed_same]
  write_self o c h := by
    simp only [changed_self]
    cases o; cases c; cases h; rfl

@[simp] theorem key_eq (r : Phikeia) : Entity.key r = r.id := rfl

/-- `AttachmentBindingModel`, less the fields the handler never reads. -/
structure AttachmentBindingModel where
  type : Option Utf16
  loci : Option (List (Option (List Int32)))
  userIds : Option (List Int64)

/-- `GroupmeBindingModel`, less the fields the handler never reads. -/
structure GroupmeBindingModel where
  attachments : Option (List (Option AttachmentBindingModel))
  text : Option Utf16

/-- The exceptions a request can end with. -/
inductive Exn where
  | nullReference
  | argumentOutOfRange
  /-- The query, the save, or the process itself failed. -/
  | infrastructure
  /-- The post to the GroupMe API failed. -/
  | web
  deriving DecidableEq

/-- The calls `msg` makes. -/
inductive Op where
  /-- `db.phikeia.ToList()` -/
  | toList
  /-- Assigning to the properties of a tracked `Phikeia`. -/
  | set (phi : Phikeia)
  /-- `db.phikeia.Add(phi)` -/
  | add (phi : Phikeia)
  /-- The web request of `sendMsg`. -/
  | post (text : Utf16)
  /-- `db.SaveChanges()` -/
  | saveChanges

/-- What a call returns. -/
def Op.Res : Op → Type
  | .toList => List Phikeia
  | .set _ => Unit
  | .add _ => Unit
  | .post _ => Unit
  | .saveChanges => Unit

/-- A request handler. -/
abbrev Handler (α : Type) : Type := Proc Op Op.Res Exn α

/-- What the environment does to one call. -/
inductive Fault where
  | none
  /-- The call fails and has no effect. -/
  | before
  /-- The call raises although a post had reached the group. -/
  | after
  deriving DecidableEq

/-- What left the request for good. -/
inductive Effect where
  | posted (text : Utf16)
  | saved
  deriving DecidableEq

/-- One request's own state: its `GroupmeDbContext`, what it has done so far, and
what the environment will do to its next calls. -/
structure Session where
  ctx : Context Phikeia
  log : List Effect
  faults : List Fault

/-- A request that has just been received. -/
def Session.start (faults : List Fault) : Session := ⟨Context.new, [], faults⟩

/-- The committed table and one request's session. -/
abbrev World : Type := Table Phikeia × Session

/-- A call that works. -/
def perform : (o : Op) → World → o.Res × World
  | .toList, (t, l) => (l.ctx.view t, (t, { l with ctx := l.ctx.load t }))
  | .set phi, (t, l) => ((), (t, { l with ctx := l.ctx.set phi }))
  | .add phi, (t, l) => ((), (t, { l with ctx := l.ctx.add phi }))
  | .post text, (t, l) => ((), (t, { l with log := l.log ++ [.posted text] }))
  | .saveChanges, (t, l) =>
      ((), (t.save l.ctx, { l with ctx := l.ctx.accept, log := l.log ++ [.saved] }))

/-- What a call raises when it fails. -/
def Op.exn : Op → Exn
  | .post _ => .web
  | _ => .infrastructure

/-- What a failing call leaves in the log. -/
def failLog : Op → Fault → List Effect → List Effect
  | .post text, .after, log => log ++ [.posted text]
  | _, _, log => log

/-- A call, with its fault. A save that fails is rolled back whole, with either fault: that a
commit goes through and its acknowledgement is lost is not modelled. -/
def exec : Exec Op Op.Res Exn World := fun o w =>
  match w.2.faults with
  | [] => (.ok (perform o w).1, (perform o w).2)
  | .none :: fs =>
      let w' : World := (w.1, { w.2 with faults := fs })
      (.ok (perform o w').1, (perform o w').2)
  | f :: fs => (.error o.exn, (w.1, { w.2 with log := failLog o f w.2.log, faults := fs }))

/-- **Everything a call can do**: it works, or it fails and leaves the table and
the context alone. -/
theorem exec_cases (o : Op) (t : Table Phikeia) (l : Session) :
    (∃ fs, exec o (t, l) = (.ok (perform o (t, { l with faults := fs })).1,
        (perform o (t, { l with faults := fs })).2))
    ∨ (∃ f fs, exec o (t, l)
        = (.error o.exn, (t, { l with log := failLog o f l.log, faults := fs }))) := by
  unfold exec
  rcases hf : l.faults with _ | ⟨_ | _ | _, fs⟩
  · exact Or.inl ⟨[], by simp only [← hf]⟩
  · exact Or.inl ⟨fs, rfl⟩
  · exact Or.inr ⟨.before, fs, rfl⟩
  · exact Or.inr ⟨.after, fs, rfl⟩

/-- A failing call never looks like a save. -/
theorem saved_mem_failLog {o : Op} {f : Fault} {log : List Effect} :
    Effect.saved ∈ failLog o f log ↔ Effect.saved ∈ log := by
  cases o <;> cases f <;> simp [failLog]

end TacPac.Groupme
