import TacPac.Lib.Isolation
import TacPac.Web.Measurements
import TacPac.Web.Visits

/-!
# The measurements, among everything

What requests to all the endpoints find out, file and mail, as a journal in the order in which
it happens (`entry`). The measurements table is what was there and then what has been filed;
a query or a mail goes by the table as it is at one place of the journal, between its own
request and its answer; and a request that has not answered has filed and mailed nothing
(`journal_run`).
-/

namespace TacPac.Web

open TacPac.Lib

/-! ## The journal -/

/-- What a call finds or does, of accounts' measurements. -/
inductive Entry where
  /-- Somebody looks an account up, or the patient row of one. -/
  | found (userId : Nat) (who : Option Nat)
  | looked (userId : Nat) (list : List Measurement)
  | filed (userId : Nat) (measurement : Measurement)
  | mailed (message : MailMessage)

/-- The measurements table, and its next key. -/
structure Journal where
  rows : List MeasurementRow
  next : Nat

/-- Those of a store. -/
def Store.journal (s : Store) : Journal := ⟨s.measurements, s.nextMeasurement⟩

namespace Journal

/-- What an entry does. -/
def apply (j : Journal) : Entry → Journal
  | .filed userId m => ⟨j.rows ++ [m.row userId j.next], j.next + 1⟩
  | _ => j

/-- When it can be made, and what is found out by it. -/
def can (j : Journal) : Entry → Prop
  | .found userId who => ∀ id, who = some id → id = userId
  | .looked userId list => list = rowsOf j.rows userId
  | .filed _ _ => j.next < 2 ^ 31
  | .mailed _ => True

/-- The journal, as a machine. -/
def machine : Machine Journal Entry := ⟨apply, can⟩

end Journal

/-- The entry that a call with this answer makes. -/
def entry : (o : ManagerOp) → o.Res → Option Entry
  | .store (.findById userId), user => some (.found userId (user.map ApplicationUser.id))
  | .store (.findPatient userId), p => some (.found userId (p.map Patient.userId))
  | .store (.measurements p), list => some (.looked p.userId list)
  | .store (.saveMeasurement p m), _ => some (.filed p.userId m)
  | .store (.send mail), _ => some (.mailed mail)
  | _, _ => none

/-- What is mailed by it. -/
def Entry.message : Entry → Option MailMessage
  | .mailed message => some message
  | _ => none

/-- What a call with this entry, or none, does to the table and to what has been mailed. -/
structure Notes (j : Journal) (sent : List MailMessage) (e : Option Entry) (j' : Journal)
    (sent' : List MailMessage) : Prop where
  can : ∀ x ∈ e, j.can x
  journal : j' = Journal.machine.after j e.toList
  sent : sent' = sent ++ e.toList.filterMap Entry.message

theorem notes_none (j : Journal) (sent : List MailMessage) : Notes j sent none j sent :=
  ⟨by simp, rfl, (List.append_nil _).symm⟩

/-- The same of what a call has come to. -/
def Noted (j : Journal) (sent : List MailMessage) (o : ManagerOp) (j' : Journal)
    (sent' : List MailMessage) : Except Exn o.Res → Prop
  | .ok x => Notes j sent (entry o x) j' sent'
  | .error _ => j' = j ∧ sent' = sent

section Calls

variable {m : ApplicationUserManager} {a : Accounts} {l : Session}

/-- A call of the store. -/
theorem noted_perform (host : Host) (s : Store) (o : Op) :
    Noted s.journal l.sent (.store o) (perform host o (s, l)).2.1.journal
      (perform host o (s, l)).2.2.sent (perform host o (s, l)).1 := by
  cases o with
  | newGuid => exact notes_none _ _
  | findByName userName => exact notes_none _ _
  | findByEmail email => exact notes_none _ _
  | findLogin login => exact notes_none _ _
  | insertUser user passwordHash =>
      rw [perform_insertUser]
      split
      · exact notes_none _ _
      · exact ⟨rfl, rfl⟩
  | updateUser userId passwordHash change =>
      rw [perform_updateUser]
      split
      · next s' hs' =>
        obtain ⟨-, logins, -, rfl⟩ := updated_eq_some.mp hs'
        exact notes_none _ _
      · exact ⟨rfl, rfl⟩
  | savePatient p =>
      rw [perform_savePatient]
      split
      · exact ⟨rfl, rfl⟩
      · exact notes_none _ _
  | findById userId =>
      refine ⟨fun x hx => ?_, rfl, (List.append_nil _).symm⟩
      cases hx
      intro id hid
      obtain ⟨user, huser, rfl⟩ := Option.map_eq_some_iff.mp hid
      simpa using List.find?_some huser
  | findPatient userId =>
      refine ⟨fun x hx => ?_, rfl, (List.append_nil _).symm⟩
      cases hx
      intro id hid
      obtain ⟨p, hp, rfl⟩ := Option.map_eq_some_iff.mp hid
      simpa using List.find?_some hp
  | measurements p =>
      refine ⟨fun x hx => ?_, rfl, (List.append_nil _).symm⟩
      cases hx
      rfl
  | saveMeasurement p measurement =>
      rw [perform_saveMeasurement]
      split
      · next hkey =>
        refine ⟨fun x hx => ?_, rfl, (List.append_nil _).symm⟩
        cases hx
        exact hkey
      · exact ⟨rfl, rfl⟩
  | send mail =>
      refine ⟨fun x hx => ?_, rfl, rfl⟩
      cases hx
      trivial

theorem noted_manage (o : ManagerOp) :
    Noted a.store.journal l.sent o (manage m o (a, l)).2.1.store.journal
      (manage m o (a, l)).2.2.sent (manage m o (a, l)).1 := by
  cases o with
  | store o =>
      obtain ⟨hstore, hl⟩ := written_store a (perform m.toHost o (a.store, l)).2.1
        (perform m.toHost o (a.store, l)).2.2 o (perform m.toHost o (a.store, l)).1
      show Noted _ _ _ (a.written _ _ o _).1.store.journal (a.written _ _ o _).2.sent _
      rw [hstore, hl]
      exact noted_perform m.toHost a.store o
  | loadUser userId => exact notes_none _ _
  | loadLogins userId => exact notes_none _ _
  | findAsync userName password => exact notes_none _ _

/-- **Every call** is its entry. -/
theorem noted_exec (m : ApplicationUserManager) (a : Accounts) (l : Session) (o : ManagerOp) :
    Noted a.store.journal l.sent o (manageExec m o (a, l)).2.1.store.journal
      (manageExec m o (a, l)).2.2.sent (manageExec m o (a, l)).1 := by
  rcases manageExec_cases m o a l with ⟨fs, hx⟩ | ⟨fs, hx⟩
  · rw [hx]
    exact @noted_manage m a { l with faults := fs } o
  · rw [hx]
    exact ⟨rfl, rfl⟩

end Calls

/-! ## What a request notes -/

/-- It has to do with measurements. -/
def Endpoint.journals : Endpoint → Bool
  | .patient _ => true
  | .sendEmail _ _ => true
  | _ => false

/-- An entry by which nothing is done. -/
def Entry.Idle : Entry → Prop
  | .found _ _ => True
  | .looked _ _ => True
  | _ => False

/-- The mail of a table. -/
def tableMail (host : Host) (recepients : Utf16) (list : List Measurement) : MailMessage :=
  ⟨utf16 "UaBitch@Bitch.you", recepients, utf16 "Test Mail - SmtpClientEmail",
    mailBody host list⟩

/-- What a request has noted, by what it answers. -/
inductive Journaled (host : Host) : Endpoint → List Entry → Response → Prop
  | other {r : Endpoint} {es : List Entry} (x : Response) : r.journals = false →
      (∀ e ∈ es, e.Idle) → Journaled host r es x
  | saved (me : Nat) (m : Measurement) (who : Option Nat) (p : Nat) (list : List Measurement) :
      Journaled host (.patient (.add me (some m)))
        [.found me who, .found me (some p), .looked p list, .filed p m]
        (.patient (.saved (utf16 "Concentration Saved: " ++ host.doubleText m.concentration)))
  | past (me : Nat) (amount : Int32) (user p : Nat) (list : List Measurement) :
      Journaled host (.patient (.getPast me amount))
        [.found me (some user), .found user (some p), .looked p list]
        (.patient (.past (lastOf amount list)))
  | mailed (me : Nat) {recepients : Utf16} (user p : Nat) (list : List Measurement) :
      host.mailAddresses recepients = true →
      Journaled host (.sendEmail me (some recepients))
        [.found me (some user), .found user (some p), .looked p list,
          .mailed (tableMail host recepients list)] (.sendEmail [])

/-- A request that has not answered has done nothing. -/
def journalPlan (w : WebApp) : Plan ManagerOp ManagerOp.Res Response Endpoint Entry where
  act := entry
  asks _ _ _ := True
  ends := Journaled w.manager.toHost
  breaks _ es := ∀ e ∈ es, e.Idle

section Programs

variable {w : WebApp} {r : Endpoint} {es : List Entry}

theorem notes_call {o : ManagerOp} {k : o.Res → ManagerHandler Response}
    (hes : ∀ e ∈ es, e.Idle)
    (hk : ∀ x, (journalPlan w).Follows r (es ++ (entry o x).toList) (k x)) :
    (journalPlan w).Follows r es (.call o k) := ⟨hes, trivial, hk⟩

theorem notes_raise {e : Exn} (hes : ∀ e ∈ es, e.Idle) :
    (journalPlan w).Follows r es (.raise e : ManagerHandler Response) := hes

theorem notes_add (me : Nat) (measurement : Option Measurement) :
    (journalPlan w).Follows (.patient (.add me measurement)) []
      ((Endpoint.patient (.add me measurement)).action w) := by
  refine notes_call (by simp) fun user => notes_call (by simp [entry, Entry.Idle]) fun p => ?_
  cases p with
  | none => exact notes_raise (by simp [entry, Entry.Idle])
  | some p =>
      refine notes_call (by simp [entry, Entry.Idle]) fun list => ?_
      cases measurement with
      | none => exact notes_raise (by simp [entry, Entry.Idle])
      | some m =>
          refine notes_call (by simp [entry, Entry.Idle]) fun _ => ?_
          exact Journaled.saved me m (Option.map ApplicationUser.id user) p.userId list

theorem notes_getPast (me : Nat) (amount : Int32) :
    (journalPlan w).Follows (.patient (.getPast me amount)) []
      ((Endpoint.patient (.getPast me amount)).action w) := by
  refine notes_call (by simp) fun user => ?_
  cases user with
  | none => exact notes_raise (by simp [entry, Entry.Idle])
  | some user =>
      refine notes_call (by simp [entry, Entry.Idle]) fun p => ?_
      cases p with
      | none => exact notes_raise (by simp [entry, Entry.Idle])
      | some p =>
          refine notes_call (by simp [entry, Entry.Idle]) fun list => ?_
          exact Journaled.past me amount user.id p.userId list

theorem notes_sendEmail (me : Nat) (recepients : Option Utf16) :
    (journalPlan w).Follows (.sendEmail me recepients) []
      ((Endpoint.sendEmail me recepients).action w) := by
  show Plan.Follows _ _ _ (embed (Proc.orRaise .argument (recepients.filter _) >>= _) >>= _)
  cases hfilter : recepients.filter w.manager.mailAddresses with
  | none => exact notes_raise (by simp)
  | some text =>
      obtain ⟨rfl, haddress⟩ := Option.filter_eq_some_iff.mp hfilter
      refine notes_call (by simp) fun user => ?_
      cases user with
      | none => exact notes_raise (by simp [entry, Entry.Idle])
      | some user =>
          refine notes_call (by simp [entry, Entry.Idle]) fun p => ?_
          cases p with
          | none => exact notes_raise (by simp [entry, Entry.Idle])
          | some p =>
              refine notes_call (by simp [entry, Entry.Idle]) fun list => ?_
              refine notes_call (by simp [entry, Entry.Idle]) fun _ => ?_
              exact Journaled.mailed me user.id p.userId list haddress

/-- The calls by which nothing is done. -/
def Quiet (o : ManagerOp) : Prop := ∀ x, ∀ e ∈ entry o x, e.Idle

theorem quiet_of_unnoted {o : ManagerOp} (h : ∀ x, entry o x = none) : Quiet o := by
  intro x e he
  rw [h x] at he
  cases he

theorem notes_quiet (hr : r.journals = false) {p : ManagerHandler Response} :
    ∀ {es : List Entry}, p.Only Quiet → (∀ e ∈ es, e.Idle) → (journalPlan w).Follows r es p := by
  induction p with
  | ret x => exact fun _ hes => Journaled.other x hr hes
  | raise e => exact fun _ hes => notes_raise hes
  | call o k ih =>
      intro es hp hes
      refine notes_call hes fun x => ih x (hp.2 x) fun e he => ?_
      rcases List.mem_append.mp he with he | he
      · exact hes e he
      · exact hp.1 x e (Option.mem_toList.mp he)

theorem only_embed {α : Type} {p : Handler α} (hp : p.Only (fun o => Quiet (.store o))) :
    (embed p).Only Quiet := by
  induction p with
  | ret x => trivial
  | raise e => trivial
  | call o k ih => exact ⟨hp.1, fun x => ih x (hp.2 x)⟩

/-! ### The user manager -/

/-- Something is looked up, or written, that is no entry. -/
theorem only_call {o : Op} (h : ∀ x, entry (.store o) x = none) :
    (Proc.ask o : Handler o.Res).Only (fun o => Quiet (.store o)) :=
  Proc.only_ask (quiet_of_unnoted h)

theorem only_unlessErrors {errors : List Utf16} {p : Handler IdentityResult}
    (hp : p.Only (fun o => Quiet (.store o))) :
    (unlessErrors errors p).Only (fun o => Quiet (.store o)) := by
  unfold unlessErrors
  split
  · exact hp
  · trivial

theorem only_validateAsync (host : Host) (user : ApplicationUser) :
    (validateAsync host user).Only (fun o => Quiet (.store o)) := by
  refine Proc.only_bind ?_ fun errors => Proc.only_bind ?_ fun errors' => trivial
  · unfold validateUserName
    dsimp only
    split
    · trivial
    · exact Proc.only_bind (only_call fun _ => rfl) fun _ => trivial
  · unfold validateEmail
    dsimp only
    split
    · trivial
    · split
      · exact Proc.only_bind (only_call fun _ => rfl) fun _ => trivial
      · trivial

theorem only_createAsync (host : Host) (user : ApplicationUser) (password : Option Utf16) :
    (createAsync host user password).Only (fun o => Quiet (.store o)) := by
  refine only_unlessErrors (Proc.only_bind (only_validateAsync host user) fun _ => ?_)
  exact only_unlessErrors (Proc.only_bind (only_call fun _ => rfl) fun _ => trivial)

theorem only_updateAsync (host : Host) (user : ApplicationUser) (passwordHash : Option Utf16)
    (change : LoginChange) :
    (updateAsync host user passwordHash change).Only (fun o => Quiet (.store o)) := by
  refine Proc.only_bind (only_validateAsync host user) fun _ => ?_
  exact only_unlessErrors (Proc.only_bind (only_call fun _ => rfl) fun _ => trivial)

theorem only_linkAsync (host : Host) (user : ApplicationUser) (passwordHash : Option Utf16)
    (login : UserLoginInfo) :
    (linkAsync host user passwordHash login).Only (fun o => Quiet (.store o)) := by
  refine Proc.only_bind (only_call fun _ => rfl) fun existingUser => ?_
  cases existingUser with
  | none => exact only_updateAsync _ _ _ _
  | some _ => trivial

theorem only_findByIdAsync (me : Nat) :
    (ApplicationUserManager.findByIdAsync me).Only Quiet := by
  refine Proc.only_bind (Proc.only_ask (quiet_of_unnoted fun _ => rfl)) fun loaded => ?_
  cases loaded with
  | none => trivial
  | some loaded =>
      exact Proc.only_bind (Proc.only_ask (quiet_of_unnoted fun _ => rfl)) fun _ => trivial

/-- A call on an account, which loads it first. -/
theorem only_loaded {α : Type} {me : Nat} {f : IdentityUser me → ManagerHandler α}
    (hf : ∀ user, (f user).Only Quiet) :
    (ApplicationUserManager.loadAsync me >>= f).Only Quiet :=
  Proc.only_bind (Proc.only_bind (only_findByIdAsync me) fun _ => Proc.only_orRaise _ _) hf

theorem only_updatePassword (m : ApplicationUserManager) {me : Nat} (user : IdentityUser me)
    (newPassword : Utf16) : (m.updatePassword user newPassword).Only Quiet :=
  only_embed (only_unlessErrors (only_updateAsync _ _ _ _))

theorem only_changePasswordAsync (m : ApplicationUserManager) (me : Nat) (old new : Utf16) :
    (m.changePasswordAsync me old new).Only Quiet := by
  refine only_loaded fun user => ?_
  split
  · exact only_updatePassword _ _ _
  · trivial

theorem only_addPasswordAsync (m : ApplicationUserManager) (me : Nat) (new : Utf16) :
    (m.addPasswordAsync me new).Only Quiet := by
  refine only_loaded fun user => ?_
  split
  · exact only_updatePassword _ _ _
  · trivial

/-! ### The endpoints -/

theorem only_handler (host : Host) (r : Request) :
    (r.handler host).Only (fun o => Quiet (.store o)) := by
  cases r with
  | register model =>
      show (Web.register host model).Only _
      unfold Web.register
      split
      · trivial
      · refine Proc.only_bind (only_call fun _ => rfl) fun id => Proc.only_bind
          (Proc.only_orRaise _ _) fun model => Proc.only_bind (Proc.only_orRaise _ _)
          fun password => Proc.only_bind (only_createAsync _ _ _) fun result => ?_
        cases result with
        | failed errors => trivial
        | success => exact Proc.only_bind (only_call fun _ => rfl) fun _ => trivial
  | registerExternal model info =>
      show (Web.registerExternal host model info).Only _
      unfold Web.registerExternal
      split
      · trivial
      · cases info with
        | none => trivial
        | some login =>
            refine Proc.only_bind (only_call fun _ => rfl) fun id => Proc.only_bind
              (Proc.only_orRaise _ _) fun model => Proc.only_bind
              (only_createAsync _ _ _) fun result => ?_
            cases result with
            | failed errors => trivial
            | success =>
                refine Proc.only_bind (Proc.only_bind (Proc.only_ask ?_) fun _ =>
                  Proc.only_bind (Proc.only_orRaise _ _) fun _ => only_linkAsync _ _ _ _)
                  fun result => ?_
                · -- the account is looked up once more
                  intro x e he
                  cases he
                  trivial
                · cases result <;> trivial

theorem only_reply {p : ManagerHandler Reply} (hp : p.Only Quiet) :
    (p >>= fun x => (.ret (.reply x) : ManagerHandler Response)).Only Quiet :=
  Proc.only_bind hp fun _ => trivial

theorem only_externalLogins (site : Site) (returnUrl state : Option Utf16) :
    (getExternalLogins site returnUrl state).Only Quiet :=
  Proc.only_foldlM fun _ _ _ => Proc.only_bind (Proc.only_orRaise _ _) fun _ => trivial

/-- A change of an account, and its answer. -/
theorem only_change {p : ManagerHandler IdentityResult} (hp : p.Only Quiet)
    {f : IdentityResult → Reply} :
    (p >>= fun x => (.ret (f x) : ManagerHandler Reply)).Only Quiet :=
  Proc.only_bind hp fun _ => trivial

/-- Nobody else has to do with measurements. -/
theorem only_action (r : Endpoint) (hr : r.journals = false) : (r.action w).Only Quiet := by
  cases r with
  | patient r => cases hr
  | sendEmail me recepients => cases hr
  | signup r => exact Proc.only_bind (only_embed (only_handler _ r)) fun _ => trivial
  | token userName password =>
      refine Proc.only_bind (Proc.only_bind (Proc.only_ask (quiet_of_unnoted fun _ => rfl))
        fun user => ?_) fun _ => trivial
      cases user <;> trivial
  | userInfo me =>
      exact Proc.only_bind (Proc.only_bind (only_findByIdAsync me) fun _ =>
        Proc.only_bind (Proc.only_orRaise _ _) fun _ => trivial) fun _ => trivial
  | checkToken me => trivial
  | logout me => trivial
  | manageInfo me returnUrl state =>
      refine Proc.only_bind (Proc.only_bind (only_findByIdAsync me) fun user => ?_)
        fun _ => trivial
      cases user with
      | none => trivial
      | some user => exact Proc.only_bind (only_externalLogins _ _ _) fun _ => trivial
  | changePassword me model =>
      show (Web.changePassword w.manager me model >>= _).Only _
      unfold Web.changePassword
      refine only_reply ?_
      split
      · trivial
      · exact Proc.only_bind (Proc.only_orRaise _ _) fun _ => Proc.only_bind
          (Proc.only_orRaise _ _) fun _ => Proc.only_bind (Proc.only_orRaise _ _) fun _ =>
          only_change (only_changePasswordAsync _ _ _ _)
  | setPassword me model =>
      show (Web.setPassword w.manager me model >>= _).Only _
      unfold Web.setPassword
      refine only_reply ?_
      split
      · trivial
      · exact Proc.only_bind (Proc.only_orRaise _ _) fun _ => Proc.only_bind
          (Proc.only_orRaise _ _) fun _ => only_change (only_addPasswordAsync _ _ _)
  | addExternalLogin me utcNow model =>
      show (Web.addExternalLogin w.manager w.accessTokenFormat utcNow me model >>= _).Only _
      unfold Web.addExternalLogin
      refine only_reply ?_
      split
      · trivial
      · refine Proc.only_bind (Proc.only_orRaise _ _) fun _ => Proc.only_bind
          (Proc.only_orRaise _ _) fun _ => ?_
        split
        · trivial
        · split
          · trivial
          · exact only_change (only_loaded fun _ => only_embed (only_linkAsync _ _ _ _))
  | removeLogin me model =>
      show (Web.removeLogin w.manager me model >>= _).Only _
      unfold Web.removeLogin
      refine only_reply ?_
      split
      · trivial
      · refine Proc.only_bind (Proc.only_orRaise _ _) fun _ => Proc.only_bind
          (Proc.only_orRaise _ _) fun _ => Proc.only_bind (Proc.only_orRaise _ _) fun _ => ?_
        split
        · exact only_change (only_loaded fun _ => only_embed (only_updateAsync _ _ _ _))
        · exact only_change (only_loaded fun _ => only_embed (only_updateAsync _ _ _ _))
  | externalLogin provider error identity =>
      show (Web.getExternalLogin w.manager w.site provider error identity >>= _).Only _
      unfold Web.getExternalLogin
      refine only_reply ?_
      split
      · trivial
      · split
        · trivial
        · split
          · trivial
          · split
            · trivial
            · refine Proc.only_bind (only_embed (only_call fun _ => rfl)) fun user => ?_
              cases user <;> trivial
  | externalLogins returnUrl state =>
      exact Proc.only_bind (only_externalLogins _ _ _) fun _ => trivial

/-- Every action notes what its answer says. -/
theorem notes_action (r : Endpoint) : (journalPlan w).Follows r [] (r.action w) := by
  cases hr : r.journals with
  | false => exact notes_quiet hr (only_action r hr) (by simp)
  | true =>
      cases r with
      | patient r =>
          cases r with
          | add me measurement => exact notes_add me measurement
          | getPast me amount => exact notes_getPast me amount
      | sendEmail me recepients => exact notes_sendEmail me recepients
      | _ => cases hr

/-- **Every request** notes what its answer says. -/
theorem notes_program (r : Endpoint) : (journalPlan w).Follows r [] (r.program w) := by
  unfold Endpoint.program
  split
  · exact notes_raise (by simp)
  · exact notes_action r

end Programs

/-! ## Runs -/

/-- What the requests of a run find out, file and mail. -/
def entries (w : WebApp) (a : Accounts) (rs : List (Endpoint × List Bool)) (sched : List Nat) :
    List (Nat × Entry) :=
  Pool.history entry (manageExec w.manager) (Visits.start w a rs) sched

/-- What is filed by it, for a request. -/
def Entry.commit (i : Nat) : Entry → Option Commit
  | .filed userId m => some ⟨i, userId, m⟩
  | _ => none

/-- The measurements that are filed, each with the request that does it. -/
def filings (h : List (Nat × Entry)) : List Commit := h.filterMap fun x => x.2.commit x.1

/-- What holds all along: the journal is what has become of the table, and every request's
part of it says what it has mailed. -/
structure Keeping (w : WebApp) (a : Accounts) (p : Visits) (h : List (Nat × Entry)) : Prop where
  traced : Pool.Traced Journal.machine (fun a : Accounts => a.store.journal) (fun _ => True)
    (journalPlan w) a p h
  mails : ∀ (i : Nat) (th : Visit), p.threads[i]? = some th →
    th.own.sent = (Pool.partOf i h).filterMap Entry.message

section Keeping

variable {w : WebApp} {a : Accounts} {p : Visits} {h : List (Nat × Entry)}

theorem keeping_init (rs : List (Endpoint × List Bool)) :
    Keeping w a (Visits.start w a rs) [] := by
  refine ⟨Pool.traced_init (p := Visits.start w a rs) trivial fun th hth => ?_,
    fun i th hth => ?_⟩
  · obtain ⟨r, -, rfl⟩ := List.mem_map.mp hth
    exact notes_program r.1
  · obtain ⟨r, -, rfl⟩ := List.mem_map.mp (List.mem_of_getElem? hth)
    rfl

/-- A turn is its entry. -/
theorem notes_advance (w : WebApp) (a : Accounts) (th : Visit) :
    Notes a.store.journal th.own.sent (Pool.did entry (manageExec w.manager) a th)
      (Pool.advance (manageExec w.manager) a th).1.store.journal
      (Pool.advance (manageExec w.manager) a th).2.own.sent := by
  obtain ⟨r, left, own⟩ := th
  cases left with
  | ret x => exact notes_none _ _
  | raise e => exact notes_none _ _
  | call o k =>
      have hnoted := noted_exec w.manager a own o
      rcases hx : manageExec w.manager o (a, own) with ⟨e | x, q⟩
      · rw [hx] at hnoted
        rw [Pool.did_error hx, Pool.advance_error hx]
        show Notes _ _ none q.1.store.journal q.2.sent
        rw [hnoted.1, hnoted.2]
        exact notes_none _ _
      · rw [hx] at hnoted
        rw [Pool.did_ok hx, Pool.advance_ok hx]
        exact hnoted

/-- **One turn.** -/
theorem keeping_step {i : Nat} {th : Visit} (hi : p.threads[i]? = some th)
    (hp : Keeping w a p h) :
    Keeping w a (p.step (manageExec w.manager) i)
      (h ++ Pool.entry i (Pool.did entry (manageExec w.manager) p.shared th)) := by
  have hnotes := notes_advance w p.shared th
  refine ⟨Pool.traced_moves (manageExec w.manager) hi hp.traced ⟨trivial, ?_, hnotes.journal⟩,
    fun j th' hth' => ?_⟩
  · cases hdid : Pool.did entry (manageExec w.manager) p.shared th with
    | none =>
        have hdid' : Pool.did (journalPlan w).act (manageExec w.manager) p.shared th = none := hdid
        rw [hdid']
        trivial
    | some e =>
        have hdid' : Pool.did (journalPlan w).act (manageExec w.manager) p.shared th = some e :=
          hdid
        rw [hdid']
        exact ⟨hnotes.can e hdid, trivial⟩
  · rw [Pool.partOf_append, List.filterMap_append]
    by_cases hj : i = j
    · subst hj
      rw [Pool.step_self hi] at hth'
      rw [Pool.partOf_entry_self, ← hp.mails i th hi, ← Option.some.inj hth']
      exact hnotes.sent
    · rw [Pool.step_other hj] at hth'
      rw [Pool.partOf_entry_other (Ne.symm hj), List.filterMap_nil, List.append_nil]
      exact hp.mails j th' hth'

theorem keeping_run (w : WebApp) (a : Accounts) (rs : List (Endpoint × List Bool))
    (sched : List Nat) : Keeping w a (Visits.after w a rs sched) (entries w a rs sched) := by
  have hrun := Pool.history_induction entry (manageExec w.manager)
    (fun _ _ _ _ hi hp => keeping_step hi hp) sched (@keeping_init w a rs)
  rwa [List.nil_append] at hrun

end Keeping

/-- The journal's table is what has been filed. -/
theorem journal_after (h : List (Nat × Entry)) : ∀ j : Journal,
    Journal.machine.after j (h.map Prod.snd)
      = ⟨j.rows ++ filed j.next (filings h), j.next + (filings h).length⟩ := by
  induction h with
  | nil =>
      intro j
      show j = ⟨j.rows ++ [], j.next⟩
      rw [List.append_nil]
  | cons x h ih =>
      intro j
      obtain ⟨i, e⟩ := x
      show Journal.machine.after (j.apply e) (h.map Prod.snd) = _
      rw [ih]
      cases e with
      | filed userId m =>
          show Journal.mk ((j.rows ++ [_]) ++ _) (j.next + 1 + _)
            = ⟨j.rows ++ filed j.next (⟨i, userId, m⟩ :: filings h), j.next + (_ + 1)⟩
          rw [filed, List.append_assoc, Nat.add_assoc, Nat.add_comm 1]
          rfl
      | _ => rfl

/-- A request's filings are those of its part of the journal. -/
theorem filings_filter (i : Nat) (h : List (Nat × Entry)) :
    (filings h).filter (fun c => c.request = i) = (Pool.partOf i h).filterMap (Entry.commit i) := by
  induction h with
  | nil => rfl
  | cons x h ih =>
      obtain ⟨j, e⟩ := x
      have hcons : (j, e) :: h = Pool.entry j (some e) ++ h := rfl
      rw [hcons, Pool.partOf_append]
      by_cases hj : j = i
      · subst hj
        rw [Pool.partOf_entry_self, List.filterMap_append, ← ih]
        cases e <;> simp [filings, Entry.commit, Pool.entry]
      · rw [Pool.partOf_entry_other (Ne.symm hj), List.nil_append, ← ih]
        cases e <;> simp [filings, Entry.commit, Pool.entry, hj]

/-! ## Requests, one by one -/

/-- The request has answered. -/
def Visits.Answered (p : Visits) (i : Nat) : Prop :=
  ∃ (th : Visit) (x : Response), p.threads[i]? = some th ∧ th.left = .ret x

/-- At a turn of the request, neither its first nor after its answer, this is so of the
measurements table. -/
def Meanwhile (w : WebApp) (a : Accounts) (rs : List (Endpoint × List Bool)) (sched : List Nat)
    (i : Nat) (P : List MeasurementRow → Prop) : Prop :=
  ∃ pre rest, sched = pre ++ i :: rest ∧ i ∈ pre ∧ ¬ (Visits.after w a rs pre).Answered i
    ∧ P (Visits.after w a rs pre).shared.store.measurements

/-- What a request has to commit. -/
def Endpoint.commit (i : Nat) : Endpoint → Option Commit
  | .patient r => r.commit i
  | _ => none

/-- What the requests of a run have come to, of the measurements. -/
structure Reported (w : WebApp) (a : Accounts) (rs : List (Endpoint × List Bool))
    (sched : List Nat) : Prop where
  /-- The table has what was there, and then what has been filed. -/
  stored : (Visits.after w a rs sched).shared.store.measurements
    = a.store.measurements ++ filed a.store.nextMeasurement (filings (entries w a rs sched))
  /-- An upload that has answered has filed what was sent, once, -/
  uploaded : ∀ (i : Nat) (th : Visit) x, (Visits.after w a rs sched).threads[i]? = some th →
    th.left = .ret x → (filings (entries w a rs sched)).filter (fun c => c.request = i)
      = (th.tag.commit i).toList
  /-- and whatever has not answered has filed and mailed nothing. -/
  unanswered : ∀ (i : Nat) (th : Visit), (Visits.after w a rs sched).threads[i]? = some th →
    (∀ x, th.left ≠ .ret x) → th.own.sent = []
      ∧ (filings (entries w a rs sched)).filter (fun c => c.request = i) = []
  /-- A query is answered from the table as it is at one moment, -/
  past : ∀ (i : Nat) (th : Visit) me amount x,
    (Visits.after w a rs sched).threads[i]? = some th → th.tag = .patient (.getPast me amount) →
    th.left = .ret x →
      Meanwhile w a rs sched i fun rows => x = .patient (.past (lastOf amount (rowsOf rows me)))
  /-- as is the one mail that is sent, to whoever it was asked for, -/
  mailed : ∀ (i : Nat) (th : Visit) me recepients x,
    (Visits.after w a rs sched).threads[i]? = some th → th.tag = .sendEmail me recepients →
    th.left = .ret x → ∃ address, recepients = some address
      ∧ w.manager.toHost.mailAddresses address = true
      ∧ Meanwhile w a rs sched i fun rows =>
        th.own.sent = [tableMail w.manager.toHost address (rowsOf rows me)]
  /-- and nobody else mails. -/
  silent : ∀ (i : Nat) (th : Visit), (Visits.after w a rs sched).threads[i]? = some th →
    th.own.sent ≠ [] → ∃ me recepients, th.tag = .sendEmail me recepients

section Reported

variable {w : WebApp} {a : Accounts} {rs : List (Endpoint × List Bool)} {sched : List Nat}
  {i : Nat} {th : Visit}

theorem measurements_after : (Visits.after w a rs sched).shared.store.measurements
    = a.store.measurements ++ filed a.store.nextMeasurement (filings (entries w a rs sched)) := by
  have hjournal := (keeping_run w a rs sched).traced.state
  rw [journal_after] at hjournal
  exact congrArg Journal.rows hjournal

/-- What an answer says that its request has noted. -/
theorem journaled_of_answer {x : Response}
    (hi : (Visits.after w a rs sched).threads[i]? = some th) (hleft : th.left = .ret x) :
    Journaled w.manager.toHost th.tag (Pool.partOf i (entries w a rs sched)) x :=
  Pool.ends_of_traced (keeping_run w a rs sched).traced hi hleft

theorem idle_of_unanswered (hi : (Visits.after w a rs sched).threads[i]? = some th)
    (hleft : ∀ x, th.left ≠ .ret x) : ∀ e ∈ Pool.partOf i (entries w a rs sched), e.Idle :=
  Pool.breaks_of_traced (keeping_run w a rs sched).traced hi hleft

/-- Nothing comes of what is idle. -/
theorem filterMap_idle {α : Type} {f : Entry → Option α} {es : List Entry}
    (hf : ∀ e : Entry, e.Idle → f e = none) (hes : ∀ e ∈ es, e.Idle) : es.filterMap f = [] :=
  List.filterMap_eq_nil_iff.mpr fun e he => hf e (hes e he)

/-- An entry that somebody has made has been possible. -/
theorem entry_can {e : Entry} (he : e ∈ Pool.partOf i (entries w a rs sched)) :
    ∃ n, Journal.can (Journal.machine.after a.store.journal
      (((entries w a rs sched).map Prod.snd).take n)) e := by
  obtain ⟨n, hn⟩ := List.mem_iff_getElem?.mp (List.mem_map_of_mem (Pool.mem_partOf.mp he))
  exact ⟨n, Machine.can_of_legal (keeping_run w a rs sched).traced.legal hn⟩

/-- Who looks something up gets what she has asked for. -/
theorem found_part {userId id : Nat}
    (he : .found userId (some id) ∈ Pool.partOf i (entries w a rs sched)) : id = userId := by
  obtain ⟨n, hcan⟩ := entry_can he
  exact hcan id rfl

/-- **When a request has looked** at the table. -/
theorem looked_part {es es' : List Entry} {userId : Nat} {list : List Measurement}
    (hes : es ≠ []) (hpart : Pool.partOf i (entries w a rs sched)
      = es ++ .looked userId list :: es') :
    Meanwhile w a rs sched i fun rows => list = rowsOf rows userId := by
  obtain ⟨l, l', hsplit, hl⟩ := Pool.partOf_split hpart
  obtain ⟨pre, rest, th, rfl, hpre, hth, hdid⟩ := Pool.history_split sched hsplit
  have hlegal := (keeping_run w a rs (pre ++ i :: rest)).traced.legal
  rw [show entries w a rs (pre ++ i :: rest) = _ from hsplit, List.map_append,
    Machine.legal_append, ← hpre] at hlegal
  have hcan : list = rowsOf (Journal.machine.after a.store.journal
      ((entries w a rs pre).map Prod.snd)).rows userId := hlegal.2.1
  rw [← (keeping_run w a rs pre).traced.state] at hcan
  refine ⟨pre, rest, rfl, ?_, fun hanswered => ?_, hcan⟩
  · obtain ⟨e, he⟩ := List.exists_mem_of_ne_nil es hes
    rw [← hl, ← hpre] at he
    exact Pool.mem_of_history pre (Pool.mem_partOf.mp he)
  · obtain ⟨th', x, hth', hleft⟩ := hanswered
    obtain rfl := Option.some.inj (hth.symm.trans hth')
    obtain ⟨o, k, hcall⟩ := Pool.left_of_did hdid
    rw [hleft] at hcall
    cases hcall

theorem meanwhile_imp {P Q : List MeasurementRow → Prop} (h : Meanwhile w a rs sched i P)
    (hPQ : ∀ rows, P rows → Q rows) : Meanwhile w a rs sched i Q := by
  obtain ⟨pre, rest, hsched, hmem, hanswered, hP⟩ := h
  exact ⟨pre, rest, hsched, hmem, hanswered, hPQ _ hP⟩

theorem getPast_answered {me : Nat} {amount : Int32} {x : Response}
    (hi : (Visits.after w a rs sched).threads[i]? = some th)
    (htag : th.tag = .patient (.getPast me amount)) (hleft : th.left = .ret x) :
    Meanwhile w a rs sched i fun rows => x = .patient (.past (lastOf amount (rowsOf rows me))) := by
  have hnoted := journaled_of_answer hi hleft
  rw [htag] at hnoted
  generalize hes : Pool.partOf i (entries w a rs sched) = es at hnoted
  cases hnoted with
  | other x hr => cases hr
  | past me amount user p list =>
      obtain rfl := @found_part w a rs sched i me user (by rw [hes]; simp)
      obtain rfl := @found_part w a rs sched i user p (by rw [hes]; simp)
      refine meanwhile_imp (@looked_part w a rs sched i [_, _] [] p list (by simp) hes) ?_
      exact fun rows hrows => by rw [hrows]

theorem sendEmail_answered {me : Nat} {recepients : Option Utf16} {x : Response}
    (hi : (Visits.after w a rs sched).threads[i]? = some th)
    (htag : th.tag = .sendEmail me recepients) (hleft : th.left = .ret x) :
    ∃ address, recepients = some address
      ∧ w.manager.toHost.mailAddresses address = true
      ∧ Meanwhile w a rs sched i fun rows =>
        th.own.sent = [tableMail w.manager.toHost address (rowsOf rows me)] := by
  have hnoted := journaled_of_answer hi hleft
  rw [htag] at hnoted
  generalize hes : Pool.partOf i (entries w a rs sched) = es at hnoted
  cases hnoted with
  | other x hr => cases hr
  | @mailed me address user p list haddress =>
      obtain rfl := @found_part w a rs sched i me user (by rw [hes]; simp)
      obtain rfl := @found_part w a rs sched i user p (by rw [hes]; simp)
      refine ⟨address, rfl, haddress,
        meanwhile_imp (@looked_part w a rs sched i [_, _] [_] p list (by simp) hes) ?_⟩
      intro rows hrows
      rw [(keeping_run w a rs sched).mails i th hi, hes, hrows]
      rfl

/-- Who has answered has filed what she was asked to. -/
theorem uploaded_of_answer {x : Response}
    (hi : (Visits.after w a rs sched).threads[i]? = some th) (hleft : th.left = .ret x) :
    (filings (entries w a rs sched)).filter (fun c => c.request = i)
      = (th.tag.commit i).toList := by
  rw [filings_filter]
  have hnoted := journaled_of_answer hi hleft
  obtain ⟨tag, left, own⟩ := th
  generalize hes : Pool.partOf i (entries w a rs sched) = es at hnoted
  cases hnoted with
  | other x hr hidle =>
      rw [filterMap_idle (fun e he => by cases e <;> first | rfl | cases he) hidle]
      cases tag with
      | patient r => cases hr
      | _ => rfl
  | saved me m who p list =>
      obtain rfl := @found_part w a rs sched i me p (by rw [hes]; simp)
      rfl
  | past me amount user p list => rfl
  | mailed me user p list haddress => rfl

theorem silent_of_unanswered (hi : (Visits.after w a rs sched).threads[i]? = some th)
    (hleft : ∀ x, th.left ≠ .ret x) : th.own.sent = []
      ∧ (filings (entries w a rs sched)).filter (fun c => c.request = i) = [] := by
  have hidle := idle_of_unanswered hi hleft
  rw [filings_filter, (keeping_run w a rs sched).mails i th hi]
  constructor
  · exact filterMap_idle (fun e he => by cases e <;> first | rfl | cases he) hidle
  · exact filterMap_idle (fun e he => by cases e <;> first | rfl | cases he) hidle

/-- Only `sendEmail` mails. -/
theorem sendEmail_of_sent (hi : (Visits.after w a rs sched).threads[i]? = some th)
    (hsent : th.own.sent ≠ []) : ∃ me recepients, th.tag = .sendEmail me recepients := by
  cases hleft : th.left with
  | ret x =>
      have hnoted := journaled_of_answer hi hleft
      rw [(keeping_run w a rs sched).mails i th hi] at hsent
      obtain ⟨tag, left, own⟩ := th
      generalize Pool.partOf i (entries w a rs sched) = es at hnoted hsent
      cases hnoted with
      | mailed me user p list haddress => exact ⟨_, _, rfl⟩
      | other x hr hidle =>
          rw [filterMap_idle (fun e he => by cases e <;> first | rfl | cases he) hidle] at hsent
          exact absurd rfl hsent
      | _ => exact absurd rfl hsent
  | raise e =>
      refine absurd (silent_of_unanswered hi fun x hx => ?_).1 hsent
      rw [hleft] at hx
      cases hx
  | call o k =>
      refine absurd (silent_of_unanswered hi fun x hx => ?_).1 hsent
      rw [hleft] at hx
      cases hx

end Reported

/-- **Measurements, among requests to all the endpoints.** -/
theorem journal_run (w : WebApp) (a : Accounts) (rs : List (Endpoint × List Bool))
    (sched : List Nat) : Reported w a rs sched where
  stored := measurements_after
  uploaded _ _ _ hi hleft := uploaded_of_answer hi hleft
  unanswered _ _ hi hleft := silent_of_unanswered hi hleft
  past _ _ _ _ _ hi htag hleft := getPast_answered hi htag hleft
  mailed _ _ _ _ _ hi htag hleft := sendEmail_answered hi htag hleft
  silent _ _ hi hsent := sendEmail_of_sent hi hsent

/-- Ann mails her measurements while she uploads two, the second of which nothing comes of. -/
def annMails : List (Endpoint × List Bool) :=
  [(.sendEmail 0 (some (utf16 "ann@jhu.edu")), []), (.patient (.add 0 (some ⟨0, 5, none⟩)), []),
    (.patient (.add 0 (some ⟨0, 6, none⟩)), [false, false, false, true])]

example : (entries plainApp annAccounts annMails [0, 1, 2, 1, 1, 2, 1, 0, 2, 0, 2, 0]).map Prod.fst
      = [0, 1, 2, 1, 1, 2, 1, 0, 2, 0, 0]
    ∧ filings (entries plainApp annAccounts annMails [0, 1, 2, 1, 1, 2, 1, 0, 2, 0, 2, 0])
      = [⟨1, 0, ⟨0, 5, none⟩⟩] := ⟨by rfl, by rfl⟩

end TacPac.Web
