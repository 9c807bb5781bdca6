import TacPac.Groupme.Model

/-!
# `GroupmeController.msg`

The handler of the bot's callback, statement by statement. Three substring
triggers (`register`, `merit`, `@bot … score`) each run a branch, in that order,
over one database context; each branch posts its reply as it ends; one
`SaveChanges` follows the last of them; and one more trigger posts a line after
it.

`deref` is a member access on a reference that may be null, `at'` an element
access of a `List<T>`.
-/

namespace TacPac.Groupme

open TacPac.Lib

/-- `o.Member`, if `o` is not null. -/
def deref {α : Type} (o : Option α) : Handler α := Proc.orRaise .nullReference o

/-- `db.phikeia.ToList()` -/
def toList : Handler (List Phikeia) := .ask Op.toList

/-- The assignments to a tracked row. -/
def setPhi (phi : Phikeia) : Handler Unit := .ask (Op.set phi)

/-- `db.phikeia.Add(phi)` -/
def addPhi (phi : Phikeia) : Handler Unit := .ask (Op.add phi)

/-- `db.SaveChanges()` -/
def saveChanges : Handler Unit := .ask Op.saveChanges

/-- `GroupmeController.sendMsg` -/
def sendMsg (text : Utf16) : Handler Unit := .ask (Op.post text)

/-- `list[i]` for an index that counts up from zero. -/
def at' {α : Type} (l : List α) (i : Nat) : Handler α := Proc.orRaise .argumentOutOfRange l[i]?

/-- `mentionsAttach.loci[i][j]` -/
def locus (a : AttachmentBindingModel) (i j : Nat) : Handler Int32 := do
  let loci ← deref a.loci
  let pair ← at' loci i
  let pair ← deref pair
  at' pair j

/-- The `foreach` that keeps the last attachment of type `mentions`. -/
def findMentions (groupme : GroupmeBindingModel) : Handler (Option AttachmentBindingModel) := do
  let attachments ← deref groupme.attachments
  attachments.foldlM (fun mentionsAttach i => do
    let i ← deref i
    if i.type = some (utf16 "mentions") then return some i else return mentionsAttach) none

/-- The `for` loop of the register branch; its result is `msg`. -/
def registerAll (text : Utf16) (a : AttachmentBindingModel) : Handler Utf16 := do
  let userIds ← deref a.userIds
  userIds.zipIdx.foldlM (fun msg (userId, i) => do
    let start ← locus a i 0
    let length ← locus a i 1
    let name ← Proc.orRaise .argumentOutOfRange
      (text.substring (start + 1).toInt (length - 1).toInt)
    let msg := msg ++ name ++ utf16 " Registered!\n"
    if !name.contains (utf16 "abriel") then
      addPhi { id := 0, groupmeId := userId, name := name, points := 0 }
    return msg) []

/-- The register branch. -/
def register (text : Utf16) (groupme : GroupmeBindingModel) : Handler Unit := do
  let mentionsAttach ← findMentions groupme
  match mentionsAttach with
  | some a =>
      let msg ← registerAll text a
      sendMsg msg
  | none => sendMsg (utf16 "You fucked up! Please tag a Phikeia (or multiple!)")

/-- The inner `foreach` of the merit branch; its result is `found` and `points`.
Its two assignments to a row are one call here: nothing happens between them
but `name.Substring(1)`, and if that raises nothing is ever saved. -/
def credit (diff : Int32) (userId : Int64) (name : Utf16) (phis : List Phikeia) :
    Handler (Bool × Int32) :=
  phis.foldlM (fun (found, points) phi => do
    if phi.groupmeId = userId then
      let name ← Proc.orRaise .argumentOutOfRange (name.substringFrom 1)
      let phi := { phi with points := phi.points + diff, name := name }
      setPhi phi
      return (true, phi.points)
    else return (found, points)) (false, 0)

/-- `"" + n` -/
def intText (n : Int32) : Utf16 := utf16 (toString n.toInt)

/-- What the merit branch adds to its reply for one mention. -/
def meritSentence (diff : Int32) (name : Utf16) (found : Bool) (points : Int32) : Utf16 :=
  if !found then utf16 "Could not find " ++ name ++ utf16 "!\n"
  else
    (if diff = 1 then utf16 "1 Point for " ++ name ++ utf16 "! NICE!"
      else utf16 "1 Point REMOVED from " ++ name ++ utf16 "!Fucking Phikeia!")
    ++ utf16 " Total of " ++ intText points ++ utf16 " points\n"

/-- The `for` loop of the merit branch; its result is `msg`. -/
def meritAll (diff : Int32) (text : Utf16) (a : AttachmentBindingModel) : Handler Utf16 := do
  let userIds ← deref a.userIds
  userIds.zipIdx.foldlM (fun msg (userId, i) => do
    let start ← locus a i 0
    let length ← locus a i 1
    let name ← Proc.orRaise .argumentOutOfRange (text.substring start.toInt length.toInt)
    let phis ← toList
    let (found, points) ← credit diff userId name phis
    return msg ++ meritSentence diff name found points) []

/-- The merit branch. -/
def merit (text : Utf16) (groupme : GroupmeBindingModel) : Handler Unit := do
  let diff : Int32 := if text.contains (utf16 "demerit") then -1 else 1
  let mentionsAttach ← findMentions groupme
  match mentionsAttach with
  | some a =>
      let msg ← meritAll diff text a
      sendMsg msg
  | none => return ()

/-- One line of the score reply. -/
def scoreLine (phi : Phikeia) : Utf16 :=
  phi.name ++ utf16 " : " ++ intText phi.points ++ utf16 "\n"

/-- The score branch. -/
def score : Handler Unit := do
  let phis ← toList
  sendMsg (utf16 "Score:\n" ++ phis.flatMap scoreLine)

/-- The three triggers, inside the `using` block. -/
def branches (text : Utf16) (groupme : GroupmeBindingModel) : Handler Unit := do
  if text.contains (utf16 "register") then register text groupme
  if text.contains (utf16 "merit") then merit text groupme
  if text.contains (utf16 "@bot") && text.contains (utf16 "score") then score

/-- `GroupmeController.msg`, on the deserialised body (null if the body is). -/
def msg (groupme : Option GroupmeBindingModel) : Handler Unit := do
  let groupme ← deref groupme
  let text ← deref groupme.text
  branches text groupme
  saveChanges
  if text.contains (utf16 "Andre Re") then sendMsg (utf16 "Andre you a bitch")

end TacPac.Groupme
