import TacPac.Lib.Pool
import TacPac.Web.Tacpac

/-!
# What overlapping requests commit

`addMeasurement` and `getPastMeasurement` requests of any patients, overlapping in any
way. An insert is one call, under a key that no row has had, so a run leaves the table it
found with what it commits appended (`run_shared`), in the order of the keys
(`filed_run`). What a request commits is what was sent (`commits_sent`), once
(`inserts_run`).
-/

namespace TacPac.Web

open TacPac.Lib

/-! ## Requests -/

/-- A request of an authenticated account. -/
inductive PatientRequest where
  | add (me : Nat) (measurement : Option Measurement)
  | getPast (me : Nat) (amount : Int32)

/-- Who sends it. -/
def PatientRequest.me : PatientRequest → Nat
  | .add me _ => me
  | .getPast me _ => me

/-- What it is answered. -/
inductive PatientAnswer where
  | saved (text : Utf16)
  | past (list : List Measurement)

/-- The code that runs for it. -/
def PatientRequest.program (host : Host) : PatientRequest → Handler PatientAnswer
  | .add me measurement => do
      let text ← addMeasurement host me measurement
      return .saved text
  | .getPast me amount => do
      let list ← getPastMeasurement me amount
      return .past list

/-- The requests that are under way. -/
abbrev Requests : Type := Pool Op Op.Res Exn PatientAnswer PatientRequest Store Session

/-- A request that has just arrived, and which of its calls will fail. -/
def arrived (host : Host) (r : PatientRequest × List Bool) :
    Thread Op Op.Res Exn PatientAnswer PatientRequest Session :=
  ⟨r.1, r.1.program host, Session.start r.2⟩

/-- Requests that arrive at once. -/
def received (host : Host) (s : Store) (reqs : List (PatientRequest × List Bool)) : Requests :=
  ⟨s, reqs.map (arrived host)⟩

/-- The account `me` has its patient row. -/
def IsPatient (s : Store) (me : Nat) : Prop := ∃ user p, user.id = me ∧ Found s user p

/-- Whose the row that is found is. -/
theorem found_userId {s : Store} {user : ApplicationUser} {p : Patient} (h : Found s user p) :
    p.userId = user.id := by simpa using List.find?_some h.patient

/-! ## What the requests guarantee -/

/-- The exceptions a request can end with. -/
def PatientRequest.Raises : PatientRequest → Exn → Prop
  | .add _ none, e => e = .nullReference ∨ e = .infrastructure
  | .add _ (some _), e => e = .infrastructure
  | .getPast _ _, e => e = .infrastructure

theorem raises_infrastructure (r : PatientRequest) : r.Raises .infrastructure := by
  rcases r with ⟨me, _ | m⟩ | ⟨me, amount⟩
  · exact Or.inr rfl
  · rfl
  · rfl

/-- Accounts and patients stay as they are; a request inserts its own measurement at most. -/
def patientContract : Pool.Contract Op Op.Res Exn PatientAnswer PatientRequest Store Session where
  rely s s' := s'.users = s.users ∧ s'.patients = s.patients
  guar r w w' := w'.1 = w.1
    ∨ ∃ me m, r = .add me (some m) ∧ w'.1 = w.1.withMeasurement me m
  done _ _ _ := True
  failed r e _ := r.Raises e
  refl _ := ⟨rfl, rfl⟩
  trans _ _ _ h h' := ⟨h'.1.trans h.1, h'.2.trans h.2⟩
  rely_of_guar := by
    intro r w w' h
    rcases h with h | ⟨me, m, -, h⟩
    · rw [h]
      exact ⟨rfl, rfl⟩
    · rw [h]
      exact ⟨rfl, rfl⟩
  done_stable _ _ _ _ _ _ h := h
  failed_stable _ _ _ _ _ _ h := h

theorem isPatient_of_rely {s s' : Store} {me : Nat} (h : IsPatient s me)
    (hrely : patientContract.rely s s') : IsPatient s' me := by
  obtain ⟨user, p, hme, hfound⟩ := h
  obtain ⟨husers, hpatients⟩ := hrely
  exact ⟨user, p, hme, by rw [husers]; exact hfound.account,
    by rw [hpatients]; exact hfound.patient⟩

section Contract

variable {host : Host} {r : PatientRequest} {s : Store} {l : Session} {me : Nat}

/-- A call among the others', and what follows it when it works. -/
theorem wp_patient {o : Op} {k : o.Res → Handler PatientAnswer}
    (h : ∀ s₁ l', patientContract.rely s s₁ → match perform host o (s₁, l') with
      | (.ok x, w) => patientContract.guar r (s₁, l) w
          ∧ Proc.wp (patientContract.setting (exec host) r) (k x) (patientContract.done r)
              (patientContract.failed r) w
      | (.error e, w) => w.1 = s₁ ∧ r.Raises e) :
    Proc.wp (patientContract.setting (exec host) r) (.call o k) (patientContract.done r)
      (patientContract.failed r) (s, l) := by
  intro w hw
  obtain ⟨s₁, l₁⟩ := w
  obtain ⟨hrely, hl⟩ := hw
  obtain rfl : l₁ = l := hl
  show patientContract.guar r (s₁, l₁) (exec host o (s₁, l₁)).2 ∧ _
  rcases exec_cases host o s₁ l₁ with ⟨fs, hx⟩ | ⟨fs, hx⟩
  · have hcall := h s₁ { l₁ with faults := fs } hrely
    have hexec : (patientContract.setting (exec host) r).exec o (s₁, l₁)
        = perform host o (s₁, { l₁ with faults := fs }) := hx
    rw [hexec, hx]
    rcases hp : perform host o (s₁, { l₁ with faults := fs }) with ⟨e | x, w⟩
    · rw [hp] at hcall
      exact ⟨Or.inl hcall.1, hcall.2⟩
    · rw [hp] at hcall
      exact hcall
  · have hexec : (patientContract.setting (exec host) r).exec o (s₁, l₁)
        = (.error .infrastructure, (s₁, { l₁ with faults := fs })) := hx
    rw [hexec, hx]
    exact ⟨Or.inl rfl, raises_infrastructure r⟩

theorem meets_add (measurement : Option Measurement) (h : IsPatient s me) :
    Proc.wp (patientContract.setting (exec host) (.add me measurement))
      ((PatientRequest.add me measurement).program host)
      (patientContract.done (.add me measurement))
      (patientContract.failed (.add me measurement)) (s, l) := by
  refine wp_patient fun s₁ l₁ hrely₁ => ⟨Or.inl rfl, ?_⟩
  refine wp_patient fun s₂ l₂ hrely₂ => ?_
  obtain ⟨user, p, rfl, hfound⟩ := isPatient_of_rely (isPatient_of_rely h hrely₁) hrely₂
  refine ⟨Or.inl rfl, ?_⟩
  rw [hfound.patient]
  refine wp_patient fun s₃ l₃ hrely₃ => ⟨Or.inl rfl, ?_⟩
  cases measurement with
  | none => exact Or.inl rfl
  | some m =>
      refine wp_patient fun s₄ l₄ hrely₄ => ?_
      rw [perform_saveMeasurement]
      by_cases hkey : s₄.nextMeasurement < 2 ^ 31
      · rw [if_pos hkey, found_userId hfound]
        exact ⟨Or.inr ⟨_, m, rfl, rfl⟩, trivial⟩
      · rw [if_neg hkey]
        exact ⟨rfl, rfl⟩

theorem meets_getPast (amount : Int32) (h : IsPatient s me) :
    Proc.wp (patientContract.setting (exec host) (.getPast me amount))
      ((PatientRequest.getPast me amount).program host)
      (patientContract.done (.getPast me amount))
      (patientContract.failed (.getPast me amount)) (s, l) := by
  refine wp_patient fun s₁ l₁ hrely₁ => ?_
  have h₁ := isPatient_of_rely h hrely₁
  obtain ⟨user, p, rfl, hfound⟩ := h₁
  refine ⟨Or.inl rfl, ?_⟩
  rw [hfound.account]
  refine wp_patient fun s₂ l₂ hrely₂ => ?_
  refine ⟨Or.inl rfl, ?_⟩
  rw [hrely₂.2, hfound.patient]
  exact wp_patient fun s₃ l₃ hrely₃ => ⟨Or.inl rfl, trivial⟩

end Contract

theorem holds_received (host : Host) {s : Store} {reqs : List (PatientRequest × List Bool)}
    (h : ∀ r ∈ reqs, IsPatient s r.1.me) : (received host s reqs).Holds patientContract
      (exec host) := by
  intro th hth
  obtain ⟨⟨r, faults⟩, hr, rfl⟩ := List.mem_map.mp hth
  have hpatient := h _ hr
  cases r with
  | add me measurement => exact meets_add measurement hpatient
  | getPast me amount => exact meets_getPast amount hpatient

/-! ## What is committed -/

/-- An `addMeasurement` request has committed. -/
structure Commit where
  /-- The index of the request. -/
  request : Nat
  /-- Who sent it. -/
  patient : Nat
  /-- What was sent. -/
  measurement : Measurement

/-- It is an insert into the measurements table. -/
def Op.isSave : Op → Bool
  | .saveMeasurement _ _ => true
  | _ => false

/-- The call is an insert, and it works. -/
def saves (host : Host) (s : Store) (l : Session) (o : Op) : Bool :=
  o.isSave && (exec host o (s, l)).1.isOk

/-- What the request at index `i` has to commit. -/
def PatientRequest.commit (i : Nat) : PatientRequest → Option Commit
  | .add me (some m) => some ⟨i, me, m⟩
  | .add _ none => none
  | .getPast _ _ => none

/-- What it commits at its turn. -/
def commitOf (host : Host) (s : Store) (i : Nat)
    (th : Thread Op Op.Res Exn PatientAnswer PatientRequest Session) : Option Commit :=
  match th.left with
  | .call o _ => if saves host s th.own o then th.tag.commit i else none
  | .ret _ => none
  | .raise _ => none

/-- What a run commits, in order. -/
def commits (host : Host) : Requests → List Nat → List Commit
  | _, [] => []
  | p, i :: sched =>
      (p.threads[i]?.bind (commitOf host p.shared i)).toList
        ++ commits host (p.step (exec host) i) sched

/-- The row it has become. -/
def Store.withCommit (s : Store) (c : Commit) : Store := s.withMeasurement c.patient c.measurement

/-- The rows that commits become, from the key `key` on. -/
def filed : Nat → List Commit → List MeasurementRow
  | _, [] => []
  | key, c :: cs => c.measurement.row c.patient key :: filed (key + 1) cs

theorem withCommits_eq (cs : List Commit) : ∀ s : Store, cs.foldl Store.withCommit s
    = { s with
        measurements := s.measurements ++ filed s.nextMeasurement cs
        nextMeasurement := s.nextMeasurement + cs.length } := by
  induction cs with
  | nil =>
      intro s
      simp [filed]
  | cons c cs ih =>
      intro s
      rw [List.foldl_cons, ih]
      simp only [Store.withCommit, Store.withMeasurement, filed, List.length_cons,
        List.append_assoc, List.singleton_append]
      congr 1
      omega

section Turn

variable {host : Host} {s : Store} {l : Session}

theorem perform_nextMeasurement (o : Op) : (perform host o (s, l)).2.1.nextMeasurement
    = s.nextMeasurement + (if o.isSave && (perform host o (s, l)).1.isOk then 1 else 0) := by
  cases o with
  | saveMeasurement p m =>
      rw [perform_saveMeasurement]
      split <;> rfl
  | insertUser user passwordHash =>
      rw [perform_insertUser]
      split <;> rfl
  | updateUser userId passwordHash change =>
      rw [perform_updateUser]
      cases hupdated : s.updated host userId change with
      | none => rfl
      | some s' =>
          obtain ⟨-, logins, -, rfl⟩ := updated_eq_some.mp hupdated
          rfl
  | savePatient p =>
      rw [perform_savePatient]
      split <;> rfl
  | _ => rfl

/-- Only an insert takes a key. -/
theorem exec_nextMeasurement (host : Host) (s : Store) (l : Session) (o : Op) :
    (exec host o (s, l)).2.1.nextMeasurement
      = s.nextMeasurement + (if saves host s l o then 1 else 0) := by
  unfold saves
  rcases exec_cases host o s l with ⟨fs, hx⟩ | ⟨fs, hx⟩
  · rw [hx]
    exact perform_nextMeasurement o
  · rw [hx]
    simp [Except.isOk, Except.toBool]

theorem saves_lt {o : Op} (h : saves host s l o = true) : s.nextMeasurement < 2 ^ 31 := by
  unfold saves at h
  obtain ⟨hsave, hok⟩ := Bool.and_eq_true_iff.mp h
  cases o with
  | saveMeasurement p m =>
      rcases exec_cases host (.saveMeasurement p m) s l with ⟨fs, hx⟩ | ⟨fs, hx⟩
      · rw [hx, perform_saveMeasurement] at hok
        by_contra hkey
        rw [if_neg hkey] at hok
        cases hok
      · rw [hx] at hok
        cases hok
  | _ => cases hsave

/-- A call that inserts is made for a request that has something to commit. -/
theorem commit_of_saves {r : PatientRequest} {o : Op} {k : o.Res → Handler PatientAnswer}
    (h : patientContract.Meets (exec host) s ⟨r, .call o k, l⟩) (hsaves : saves host s l o = true)
    (i : Nat) : ∃ c, r.commit i = some c ∧ (exec host o (s, l)).2.1 = s.withCommit c := by
  have hguar : patientContract.guar r (s, l) (exec host o (s, l)).2 :=
    (h (s, l) ⟨patientContract.refl s, rfl⟩).1
  have hkey := exec_nextMeasurement host s l o
  rw [if_pos hsaves] at hkey
  rcases hguar with hsame | ⟨me, m, rfl, hrow⟩
  · rw [hsame] at hkey
    simp at hkey
  · exact ⟨⟨i, me, m⟩, rfl, hrow⟩

/-- Any other call leaves the store alone. -/
theorem exec_of_not_saves {r : PatientRequest} {o : Op} {k : o.Res → Handler PatientAnswer}
    (h : patientContract.Meets (exec host) s ⟨r, .call o k, l⟩)
    (hsaves : saves host s l o = false) : (exec host o (s, l)).2.1 = s := by
  have hguar : patientContract.guar r (s, l) (exec host o (s, l)).2 :=
    (h (s, l) ⟨patientContract.refl s, rfl⟩).1
  have hkey := exec_nextMeasurement host s l o
  rw [if_neg (by rw [hsaves]; exact Bool.false_ne_true)] at hkey
  rcases hguar with hsame | ⟨me, m, -, hrow⟩
  · exact hsame
  · rw [hrow] at hkey
    simp [Store.withMeasurement] at hkey

/-- **One turn**, as the store sees it. -/
theorem advance_shared {th : Thread Op Op.Res Exn PatientAnswer PatientRequest Session}
    (h : patientContract.Meets (exec host) s th) (i : Nat) :
    (Pool.advance (exec host) s th).1
      = (commitOf host s i th).toList.foldl Store.withCommit s := by
  obtain ⟨r, left, own⟩ := th
  cases left with
  | ret a => rfl
  | raise e => rfl
  | call o k =>
      rw [Pool.advance_call_shared]
      cases hsaves : saves host s own o with
      | false =>
          rw [exec_of_not_saves h hsaves]
          simp [commitOf, hsaves]
      | true =>
          obtain ⟨c, hc, hrow⟩ := commit_of_saves h hsaves i
          simp [commitOf, hsaves, hc, hrow]

end Turn

/-- **A run**, as the store sees it: the commits, one after another. -/
theorem run_shared {host : Host} (sched : List Nat) : ∀ {p : Requests},
    p.Holds patientContract (exec host) →
      (p.run (exec host) sched).shared
        = (commits host p sched).foldl Store.withCommit p.shared := by
  induction sched with
  | nil =>
      intro p h
      rfl
  | cons i sched ih =>
      intro p h
      show ((p.step (exec host) i).run (exec host) sched).shared = _
      rw [ih (Pool.step_holds h i)]
      show _ = ((p.threads[i]?.bind (commitOf host p.shared i)).toList
        ++ commits host (p.step (exec host) i) sched).foldl Store.withCommit p.shared
      rw [List.foldl_append]
      congr 1
      unfold Pool.step
      cases hi : p.threads[i]? with
      | none => rfl
      | some th => exact advance_shared (h th (List.mem_of_getElem? hi)) i

/-! ## Keys -/

/-- The measurements table, under keys that the database has counted up. -/
structure Filed (s : Store) : Prop where
  /-- The rows are in the order of their keys. -/
  increasing : s.measurements.Pairwise
    fun r r' => r.measurement.id.toInt < r'.measurement.id.toInt
  /-- The next key is a new one. -/
  taken : ∀ r ∈ s.measurements, r.measurement.id.toInt < s.nextMeasurement
  /-- Every row has taken a key, and the first key is one. -/
  count : s.measurements.length < s.nextMeasurement
  /-- The keys that are left are an `int`. -/
  room : s.nextMeasurement ≤ 2 ^ 31

theorem filed_init : Filed Store.empty :=
  ⟨List.Pairwise.nil, by simp [Store.empty], by decide, by decide⟩

theorem filed_withCommit {s : Store} (h : Filed s) (hkey : s.nextMeasurement < 2 ^ 31)
    (c : Commit) : Filed (s.withCommit c) := by
  have hid : (Int32.ofNat s.nextMeasurement).toInt = s.nextMeasurement :=
    Int32.toInt_ofNat_of_lt hkey
  refine ⟨List.pairwise_append.mpr ⟨h.increasing, List.pairwise_singleton _ _, ?_⟩, ?_, ?_, ?_⟩
  · intro r hr r' hr'
    obtain rfl := List.mem_singleton.mp hr'
    show r.measurement.id.toInt < (Int32.ofNat s.nextMeasurement).toInt
    rw [hid]
    exact h.taken r hr
  · intro r hr
    show r.measurement.id.toInt < ((s.nextMeasurement + 1 : Nat) : Int)
    rcases List.mem_append.mp hr with hr | hr
    · have hlt := h.taken r hr
      omega
    · obtain rfl := List.mem_singleton.mp hr
      show (Int32.ofNat s.nextMeasurement).toInt < _
      omega
  · show (s.measurements ++ [_]).length < s.nextMeasurement + 1
    rw [List.length_append, List.length_singleton]
    exact Nat.succ_lt_succ h.count
  · exact hkey

theorem commitOf_lt {host : Host} {s : Store} {i : Nat}
    {th : Thread Op Op.Res Exn PatientAnswer PatientRequest Session} {c : Commit}
    (h : commitOf host s i th = some c) : s.nextMeasurement < 2 ^ 31 := by
  unfold commitOf at h
  split at h
  · split at h
    · next hsaves => exact saves_lt hsaves
    · cases h
  · cases h
  · cases h

theorem filed_step {host : Host} {p : Requests} (hp : p.Holds patientContract (exec host))
    (h : Filed p.shared) (i : Nat) : Filed (p.step (exec host) i).shared := by
  unfold Pool.step
  cases hi : p.threads[i]? with
  | none => exact h
  | some th =>
      show Filed (Pool.advance (exec host) p.shared th).1
      rw [advance_shared (hp th (List.mem_of_getElem? hi)) i]
      cases hc : commitOf host p.shared i th with
      | none => exact h
      | some c => exact filed_withCommit h (commitOf_lt hc) c

theorem filed_run {host : Host} (sched : List Nat) : ∀ {p : Requests},
    p.Holds patientContract (exec host) → Filed p.shared →
      Filed (p.run (exec host) sched).shared := by
  induction sched with
  | nil => intro p hp h; exact h
  | cons i sched ih => intro p hp h; exact ih (Pool.step_holds hp i) (filed_step hp h i)

/-! ## Who has committed -/

theorem commitOf_commit {host : Host} {s : Store} {i : Nat}
    {th : Thread Op Op.Res Exn PatientAnswer PatientRequest Session} {c : Commit}
    (h : commitOf host s i th = some c) : th.tag.commit i = some c := by
  unfold commitOf at h
  split at h
  · split at h
    · exact h
    · cases h
  · cases h
  · cases h

theorem commit_request {r : PatientRequest} {i : Nat} {c : Commit} (h : r.commit i = some c) :
    c.request = i ∧ r = .add c.patient (some c.measurement) := by
  rcases r with ⟨me, _ | m⟩ | ⟨me, amount⟩
  · cases h
  · cases h
    exact ⟨rfl, rfl⟩
  · cases h

/-- What is committed was sent. -/
theorem commits_sent {host : Host} (sched : List Nat) : ∀ {p : Requests} {c : Commit},
    c ∈ commits host p sched →
      (p.threads.map Thread.tag)[c.request]? = some (.add c.patient (some c.measurement)) := by
  induction sched with
  | nil => intro p c hc; cases hc
  | cons i sched ih =>
      intro p c hc
      unfold commits at hc
      rcases List.mem_append.mp hc with hc | hc
      · obtain ⟨th, hi, hth⟩ := Option.bind_eq_some_iff.mp (Option.mem_toList.mp hc)
        obtain ⟨hreq, htag⟩ := commit_request (commitOf_commit hth)
        rw [hreq, List.getElem?_map, hi, ← htag]
        rfl
      · have hlater := ih hc
        rwa [Pool.step_tags] at hlater

/-- The program inserts `n` times at most, and that often before it answers that it has. -/
def Inserts : Handler PatientAnswer → Nat → Prop
  | .ret (.saved _), n => n = 0
  | .ret (.past _), _ => True
  | .raise _, _ => True
  | .call o k, n => if o.isSave then 0 < n ∧ ∀ x, Inserts (k x) (n - 1) else ∀ x, Inserts (k x) n

theorem inserts_program (host : Host) (r : PatientRequest) : Inserts (r.program host) 1 := by
  cases r with
  | add me measurement =>
      intro user patient
      cases patient with
      | none => trivial
      | some p =>
          intro loaded
          cases measurement with
          | none => trivial
          | some m => exact ⟨Nat.one_pos, fun _ => rfl⟩
  | getPast me amount =>
      intro user
      cases user with
      | none => trivial
      | some user =>
          intro patient
          cases patient with
          | none => trivial
          | some p => exact fun _ => trivial

/-- Of `n` inserts, a turn makes one or none. -/
theorem inserts_advance {host : Host} {s : Store} {i n : Nat}
    {th : Thread Op Op.Res Exn PatientAnswer PatientRequest Session}
    (h : patientContract.Meets (exec host) s th) (hn : Inserts th.left n) :
    ∃ n', Inserts (Pool.advance (exec host) s th).2.left n'
      ∧ (commitOf host s i th).toList.length + n' = n := by
  obtain ⟨r, left, own⟩ := th
  cases left with
  | ret a => exact ⟨n, hn, Nat.zero_add n⟩
  | raise e => exact ⟨n, hn, Nat.zero_add n⟩
  | call o k =>
      unfold Inserts at hn
      rcases hq : exec host o (s, own) with ⟨e | x, w⟩
      · have hnot : saves host s own o = false := by
          unfold saves
          rw [hq]
          exact Bool.and_false _
        rw [Pool.advance_error hq]
        exact ⟨n, trivial, by simp [commitOf, hnot]⟩
      · rw [Pool.advance_ok hq]
        have hsaves : saves host s own o = o.isSave := by
          unfold saves
          rw [hq]
          exact Bool.and_true _
        cases hsave : o.isSave with
        | false =>
            rw [hsave, if_neg Bool.false_ne_true] at hn
            exact ⟨n, hn x, by simp [commitOf, hsaves, hsave]⟩
        | true =>
            rw [hsave, if_pos rfl] at hn
            obtain ⟨c, hc, -⟩ := commit_of_saves h (hsaves.trans hsave) i
            refine ⟨n - 1, hn.2 x, ?_⟩
            simp only [commitOf, hsaves, hsave, if_true, hc, Option.toList_some,
              List.length_singleton]
            omega

/-- Of `n` inserts, a run makes as many as it has committed. -/
theorem inserts_run {host : Host} (sched : List Nat) : ∀ {p : Requests} {i n : Nat}
    {th : Thread Op Op.Res Exn PatientAnswer PatientRequest Session},
    p.Holds patientContract (exec host) → p.threads[i]? = some th → Inserts th.left n →
      ∃ th' n', (p.run (exec host) sched).threads[i]? = some th' ∧ Inserts th'.left n'
        ∧ ((commits host p sched).map Commit.request).count i + n' = n := by
  induction sched with
  | nil => intro p i n th hp hi hn; exact ⟨th, n, hi, hn, Nat.zero_add n⟩
  | cons j sched ih =>
      intro p i n th hp hi hn
      have hp' := Pool.step_holds hp j
      unfold commits
      rw [List.map_append, List.count_append]
      by_cases hj : j = i
      · obtain rfl := hj
        obtain ⟨n', hn', hcount⟩ :=
          inserts_advance (i := j) (hp th (List.mem_of_getElem? hi)) hn
        obtain ⟨th', n'', hth', hn'', hrest⟩ := ih hp' (Pool.step_self hi) hn'
        refine ⟨th', n'', hth', hn'', ?_⟩
        rw [hi, Option.bind_some]
        cases hc : commitOf host p.shared j th with
        | none =>
            rw [hc] at hcount
            simp only [Option.toList_none, List.length_nil] at hcount
            simp only [Option.toList_none, List.map_nil, List.count_nil]
            omega
        | some c =>
            rw [hc] at hcount
            have hreq := (commit_request (commitOf_commit hc)).1
            simp only [Option.toList_some, List.length_singleton] at hcount
            simp only [Option.toList_some, List.map_cons, List.map_nil, hreq,
              List.count_singleton_self]
            omega
      · obtain ⟨th', n', hth', hn', hrest⟩ := ih hp' ((Pool.step_other hj).trans hi) hn
        refine ⟨th', n', hth', hn', ?_⟩
        have hnone : (((p.threads[j]?.bind (commitOf host p.shared j)).toList).map
            Commit.request).count i = 0 := by
          refine List.count_eq_zero.mpr fun hmem => ?_
          obtain ⟨c, hc, hreq⟩ := List.mem_map.mp hmem
          obtain ⟨thj, -, hcj⟩ := Option.bind_eq_some_iff.mp (Option.mem_toList.mp hc)
          exact hj ((commit_request (commitOf_commit hcj)).1.symm.trans hreq)
        omega

end TacPac.Web
