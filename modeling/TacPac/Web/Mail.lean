import Mathlib
import TacPac.Lib.Markup
import TacPac.Web.Measurements

/-!
# The table that is mailed

`sendEmail` puts what a client has sent as the time of a measurement into an HTML body as
it is. What the recipient reads are the measurements exactly if no time has a tag or a
character reference in it (`mail_iff`); a time that does can make one measurement look like
two.
-/

namespace TacPac.Web

open TacPac.Lib

/-! ## The recipient -/

/-- A unit that stands for itself: no `<`, no `&`, and no NUL or carriage return. -/
def Ordinary (u : UInt16) : Prop := u ∉ [0, 13, 38, 60]

instance : DecidablePred Ordinary := fun u =>
  inferInstanceAs (Decidable (u ∉ ([0, 13, 38, 60] : List UInt16)))

/-- What the mail is read with. -/
structure MailClient where
  /-- The text of character data, with its references resolved. -/
  resolve : Utf16 → Utf16
  /-- A reference is no shorter than what it stands for. -/
  resolve_length : ∀ t, (resolve t).length ≤ t.length
  resolve_ordinary : ∀ t, (∀ u ∈ t, Ordinary u) → resolve t = t

/-- A `<` before a letter, a `/`, a `!` or a `?` is markup. -/
def opensTag (u : UInt16) : Bool :=
  decide (65 ≤ u ∧ u ≤ 90 ∨ 97 ≤ u ∧ u ≤ 122 ∨ u = 33 ∨ u = 47 ∨ u = 63)

namespace MailClient

variable (client : MailClient)

/-- HTML, as this client reads it. -/
def markup : Markup UInt16 where
  lt := 60
  gt := 62
  opens := opensTag
  resolve := client.resolve
  opens_lt := rfl
  resolve_length := client.resolve_length

/-- The tags of the table. -/
def tags : client.markup.Tags where
  row := ⟨utf16 "tr", rfl, (by decide : (62 : UInt16) ∉ utf16 "tr")⟩
  rowEnd := ⟨utf16 "/tr", rfl, (by decide : (62 : UInt16) ∉ utf16 "/tr")⟩
  cell := ⟨utf16 "td", rfl, (by decide : (62 : UInt16) ∉ utf16 "td")⟩
  cellEnd := ⟨utf16 "/td", rfl, (by decide : (62 : UInt16) ∉ utf16 "/td")⟩
  tableEnd := ⟨utf16 "/table", rfl, (by decide : (62 : UInt16) ∉ utf16 "/table")⟩
  row_ne := (by decide : utf16 "/table" ≠ utf16 "tr")
  cell_ne := (by decide : utf16 "/tr" ≠ utf16 "td")

end MailClient

/-- The head of the table. -/
def mailHead : Utf16 := utf16 "<table><tr><th>id</th><th>date</th><th>measurement</th></tr>"

/-- The cells of the rows under the head. -/
def MailClient.readTable (client : MailClient) (body : Utf16) : Option (List (List Utf16)) :=
  (body.dropPrefix? mailHead).bind client.tags.read

/-! ## The mail -/

/-- What the three cells of a row should say. -/
def mailCells (host : Host) (i : Measurement) : List Utf16 :=
  [utf16 (toString i.id.toInt), i.time.getD [], host.doubleText i.concentration]

/-- The mail shows `list`: a row for each measurement, in order. -/
def Reads (host : Host) (client : MailClient) (list : List Measurement) : Prop :=
  client.readTable (mailBody host list) = some (list.map (mailCells host))

/-- How a `double` is formatted. -/
structure NumberFormat (host : Host) : Prop where
  injective : Function.Injective host.doubleText
  ordinary : ∀ concentration, ∀ u ∈ host.doubleText concentration, Ordinary u

/-- No time is mailed as an empty one. -/
def Measurement.mailed (m : Measurement) : Measurement := { m with time := some (m.time.getD []) }

/-- A patient's rows are what is mailed. -/
theorem run_sendEmail {host : Host} {s : Store} {user : ApplicationUser} {p : Patient}
    (h : Found s user p) {recepients : Utf16} (haddress : host.mailAddresses recepients = true) :
    (sendEmail host user.id (some recepients)).run (exec host) (s, Session.start [])
      = (.ok [], (s, ⟨[⟨utf16 "UaBitch@Bitch.you", recepients,
          utf16 "Test Mail - SmtpClientEmail",
          mailBody host (rowsOf s.measurements user.id)⟩], []⟩)) := by
  unfold sendEmail
  rw [Option.filter_some, if_pos haddress]
  show (deref (s.users.find? (fun u => u.id = user.id)) >>= _ : Handler Utf16).run (exec host)
    (s, Session.start []) = _
  rw [h.account]
  show (deref (s.patients.find? (fun p => p.userId = user.id)) >>= _ : Handler Utf16).run
    (exec host) (s, Session.start []) = _
  rw [h.patient, ← found_userId h]
  rfl

section Mail

variable {host : Host} {client : MailClient}

theorem mailRow_eq (client : MailClient) (i : Measurement) :
    mailRow host i = client.tags.writeRow (mailCells host i) := by
  have hrow : utf16 "<tr><td>" = client.tags.row.write ++ client.tags.cell.write := rfl
  have hnext : utf16 "</td><td>" = client.tags.cellEnd.write ++ client.tags.cell.write := rfl
  have hend : utf16 "</td></tr>" = client.tags.cellEnd.write ++ client.tags.rowEnd.write := rfl
  unfold mailRow mailCells
  rw [hrow, hnext, hend]
  simp only [Markup.Tags.writeRow, Markup.Tags.writeCell, List.flatMap_cons, List.flatMap_nil,
    List.append_assoc, List.nil_append]

theorem mailBody_eq (client : MailClient) (list : List Measurement) :
    mailBody host list = mailHead ++ client.tags.write (list.map (mailCells host)) := by
  have hend : utf16 "</table>" = client.tags.tableEnd.write := rfl
  unfold mailBody Markup.Tags.write
  rw [hend, List.flatMap_map, List.append_assoc, mailHead]
  congr 2
  exact List.flatMap_congr fun i _ => mailRow_eq client i

theorem readTable_body (list : List Measurement) : client.readTable (mailBody host list)
    = client.tags.read (client.tags.write (list.map (mailCells host))) := by
  unfold MailClient.readTable
  rw [mailBody_eq client, List.dropPrefix?_append_of_beq _ (beq_self_eq_true _)]
  rfl

theorem inert_of_ordinary {t : Utf16} (h : ∀ u ∈ t, Ordinary u) : client.markup.Inert t := by
  refine ⟨fun u _ hinfix => ?_, client.resolve_ordinary t h⟩
  have hlt : (60 : UInt16) ∈ t := hinfix.subset List.mem_cons_self
  exact h 60 hlt (by decide)

theorem ordinary_int (n : Int) : ∀ u ∈ utf16 (toString n), Ordinary u := by
  intro u hu hmem
  have hrange := utf16_int_range n u hu
  simp only [List.mem_cons, List.not_mem_nil, or_false] at hmem
  rcases hmem with rfl | rfl | rfl | rfl
  · exact absurd hrange.1 (by decide)
  · exact absurd hrange.1 (by decide)
  · exact absurd hrange.1 (by decide)
  · exact absurd hrange.2 (by decide)

theorem utf16_int_inj {a b : Int} (h : utf16 (toString a) = utf16 (toString b)) : a = b := by
  have hsmall : ∀ n : Int, ∀ c ∈ (toString n).toList, c.toNat < 0x10000 := fun n c hc =>
    Nat.lt_of_le_of_lt (toString_int_range c hc).2 (by decide)
  have hchars : (toString a).toList = (toString b).toList := by
    rw [← utf16_chars (hsmall a), ← utf16_chars (hsmall b), h]
  exact Int.repr_injective (String.toList_inj.mp hchars)

/-- **What the mail shows.** -/
theorem reads_iff (hnum : NumberFormat host) (client : MailClient) (list : List Measurement) :
    Reads host client list ↔ ∀ m ∈ list, client.markup.Inert (m.time.getD []) := by
  unfold Reads
  rw [readTable_body, Markup.read_write_iff, List.forall_mem_map]
  refine forall₂_congr fun m _ => ?_
  unfold mailCells
  rw [List.forall_mem_cons, List.forall_mem_cons, List.forall_mem_singleton]
  exact ⟨fun h => h.2.1, fun h => ⟨inert_of_ordinary (ordinary_int _), h,
    inert_of_ordinary (hnum.ordinary _)⟩⟩

theorem mailed_of_cells (hnum : NumberFormat host) {m m' : Measurement}
    (h : mailCells host m = mailCells host m') : m.mailed = m'.mailed := by
  obtain ⟨id, concentration, time⟩ := m
  obtain ⟨id', concentration', time'⟩ := m'
  simp only [mailCells, List.cons.injEq, and_true] at h
  obtain ⟨hid, htime, hconcentration⟩ := h
  obtain rfl := Int32.toInt_inj.mp (utf16_int_inj hid)
  obtain rfl := hnum.injective hconcentration
  simp only [Measurement.mailed, htime]

theorem mailed_of_map (hnum : NumberFormat host) (l : List Measurement) :
    ∀ l' : List Measurement, l.map (mailCells host) = l'.map (mailCells host) →
      l.map Measurement.mailed = l'.map Measurement.mailed := by
  induction l with
  | nil =>
      intro l' h
      rw [List.map_eq_nil_iff.mp h.symm]
  | cons m l ih =>
      intro l' h
      obtain ⟨m', l'', rfl, hm, hl⟩ := List.map_eq_cons_iff.mp h.symm
      rw [List.map_cons, List.map_cons, mailed_of_cells hnum hm, ih l'' hl.symm]

/-- The mail does not tell no time from an empty one. -/
theorem mailBody_mailed (list : List Measurement) :
    mailBody host (list.map Measurement.mailed) = mailBody host list := by
  unfold mailBody
  rw [List.flatMap_map]
  rfl

end Mail

/-- **The measurements from the mail**: two lists are both shown as they are, and told apart
by their bodies, exactly if nothing in their times is markup and they differ in more than in
whether a time is missing or empty. -/
theorem mail_iff {host : Host} (hnum : NumberFormat host) (client : MailClient)
    (l l' : List Measurement) :
    Reads host client l ∧ Reads host client l' ∧ (mailBody host l = mailBody host l' → l = l')
      ↔ (∀ m ∈ l ++ l', client.markup.Inert (m.time.getD []))
        ∧ (l.map Measurement.mailed = l'.map Measurement.mailed → l = l') := by
  rw [List.forall_mem_append, reads_iff hnum client, reads_iff hnum client, and_assoc]
  refine and_congr_right fun hl => and_congr_right fun hl' => ?_
  constructor
  · intro hbody hmailed
    exact hbody (by rw [← mailBody_mailed l, hmailed, mailBody_mailed])
  · intro hmailed hbody
    -- both lists are what the one body is read as
    have hread : Reads host client l := (reads_iff hnum client l).mpr hl
    have hread' : Reads host client l' := (reads_iff hnum client l').mpr hl'
    unfold Reads at hread hread'
    rw [← hbody, hread] at hread'
    exact hmailed (mailed_of_map hnum l l' (Option.some.inj hread'))

/-! ### Two measurements, or one -/

/-- Only five is written as it should be. -/
def fiveText (concentration : UInt64) : Utf16 :=
  if concentration = 0x4014000000000000 then utf16 "5"
  else 35 :: utf16 (toString (concentration.toNat : Int))

/-- A host that writes numbers like this. -/
def fiveHost : Host := { plainHost with doubleText := fiveText }

theorem fiveHost_format : NumberFormat fiveHost := by
  refine ⟨fun c c' h => ?_, fun c u hu => ?_⟩
  · change fiveText c = fiveText c' at h
    unfold fiveText at h
    split_ifs at h with hc hc'
    · exact hc.trans hc'.symm
    · cases h
    · cases h
    · have hint := utf16_int_inj (List.cons.inj h).2
      exact UInt64.toNat_inj.mp (by omega)
  · change u ∈ fiveText c at hu
    unfold fiveText at hu
    split_ifs at hu
    · obtain rfl : u = 53 := List.mem_singleton.mp hu
      exact by decide
    · rcases List.mem_cons.mp hu with rfl | hu
      · exact by decide
      · exact ordinary_int _ u hu

/-- A client that shows every text as it is. -/
def plainText : MailClient := ⟨id, fun _ => le_rfl, fun _ _ => rfl⟩

/-- The same reading, filed twice. -/
def fiveTwice (id : Int32) : List Measurement :=
  [⟨id, 0x4014000000000000, some (utf16 "10:30")⟩]

theorem mail_iff_five :
    Reads fiveHost plainText (fiveTwice 1) ∧ Reads fiveHost plainText (fiveTwice 2)
      ∧ (mailBody fiveHost (fiveTwice 1) = mailBody fiveHost (fiveTwice 2) →
        fiveTwice 1 = fiveTwice 2) := by
  refine (mail_iff fiveHost_format plainText _ _).mpr ⟨?_, fun h => ?_⟩
  · have hinert : plainText.markup.Inert (utf16 "10:30") := by
      refine inert_of_ordinary ?_
      show ∀ u ∈ [49, 48, 58, 51, 48], Ordinary u
      simp only [List.forall_mem_cons, List.not_mem_nil, false_implies, implies_true, and_true]
      decide
    intro m hm
    rcases List.mem_append.mp hm with hm | hm
    · rw [List.mem_singleton.mp hm]
      exact hinert
    · rw [List.mem_singleton.mp hm]
      exact hinert
  · -- the ids tell them apart
    have hids := congrArg (List.map Measurement.id) h
    exact absurd hids (by decide)

/-- One measurement with the end of its row in its time, and the two that it looks like. -/
theorem mail_forged :
    ¬ ∀ host : Host, NumberFormat host → ∀ (client : MailClient) (l l' : List Measurement),
      Reads host client l ∧ Reads host client l'
        ∧ (mailBody host l = mailBody host l' → l = l') := by
  intro h
  obtain ⟨-, -, hdetermined⟩ := h fiveHost fiveHost_format plainText
    [⟨1, 0x4014000000000000, some (utf16 "a</td><td>5</td></tr><tr><td>2</td><td>b")⟩]
    [⟨1, 0x4014000000000000, some (utf16 "a")⟩, ⟨2, 0x4014000000000000, some (utf16 "b")⟩]
  exact absurd (congrArg List.length (hdetermined rfl)) (by decide)

end TacPac.Web
