import TacPac.Web.Commits

/-!
# Measurements, while others measure

A query loads its patient's rows in one call, and so it answers from the rows that were
committed when it loaded them, whatever else goes on (`run_past`). What it answers is the
last of them.
-/

namespace TacPac.Web

open TacPac.Lib

/-! ## Queries -/

/-- A patient's measurements, of the rows `rows`. -/
def rowsOf (rows : List MeasurementRow) (me : Nat) : List Measurement :=
  (rows.filter (fun r => r.patient = me)).map (·.measurement)

/-- `answer` is the last `amount` of `list`, or all there are, each under its own key. -/
structure LastOf (list : List Measurement) (amount : Int32) (answer : List Measurement) :
    Prop where
  suffix : answer <:+ list
  count : answer.length = min amount.toInt.toNat list.length
  increasing : answer.Pairwise fun m m' => m.id.toInt < m'.id.toInt

/-- How many rows the window leaves out, as the difference wraps. -/
theorem lastOf_bmod {amount : Int32} {list : List Measurement} (hlen : list.length < 2 ^ 31) :
    lastOf amount list
      = list.drop (max 0 ((list.length - amount.toInt : Int).bmod (2 ^ 32))).toNat := by
  unfold lastOf
  have hsub : (Int32.ofNat list.length - amount).toInt
      = (list.length - amount.toInt : Int).bmod (2 ^ 32) := by
    rw [Int32.toInt_sub, Int32.toInt_ofNat_of_lt hlen]
  have hzero : (0 : Int32).toInt = 0 := rfl
  congr 1
  show (ite ((0 : Int32) ≤ _) (_ : Int32) _).toInt.toNat = _
  split
  · next hle =>
    rw [Int32.le_iff_toInt_le, hsub, hzero] at hle
    rw [hsub]
    omega
  · next hneg =>
    rw [Int32.le_iff_toInt_le, hsub, hzero] at hneg
    rw [hzero]
    omega

/-- The window does not overflow. -/
theorem lastOf_eq {amount : Int32} {list : List Measurement} (h : 0 ≤ amount.toInt)
    (hlen : list.length < 2 ^ 31) :
    lastOf amount list = list.drop (list.length - amount.toInt.toNat) := by
  have hle : amount.toInt < 2 ^ 31 := amount.toInt_lt
  have hfits : (list.length - amount.toInt : Int).bmod (2 ^ 32) = list.length - amount.toInt :=
    Int.bmod_eq_of_le (by omega) (by omega)
  rw [lastOf_bmod hlen, hfits]
  congr 1
  omega

theorem lastOf_rows {s : Store} (h : Filed s) (me : Nat) {amount : Int32}
    (hamount : 0 ≤ amount.toInt) :
    LastOf (rowsOf s.measurements me) amount (lastOf amount (rowsOf s.measurements me)) := by
  have hlen : (rowsOf s.measurements me).length < 2 ^ 31 := by
    unfold rowsOf
    rw [List.length_map]
    have hsub := List.length_filter_le (fun r => decide (r.patient = me)) s.measurements
    have hcount := h.count
    have hroom := h.room
    omega
  have hsorted : (rowsOf s.measurements me).Pairwise fun m m' => m.id.toInt < m'.id.toInt := by
    unfold rowsOf
    rw [List.pairwise_map]
    exact h.increasing.filter _
  rw [lastOf_eq hamount hlen]
  refine ⟨List.drop_suffix _ _, ?_, hsorted.drop⟩
  rw [List.length_drop]
  omega

/-! ### Any amount -/

/-- The last `amount` of `list`: none if it is negative, all of them if it is large. -/
def lastMeasurements (amount : Int32) (list : List Measurement) : List Measurement :=
  list.drop (list.length - (max 0 (min amount.toInt list.length)).toNat)

theorem lastMeasurements_neg {amount : Int32} (list : List Measurement)
    (h : amount.toInt < 0) : lastMeasurements amount list = [] := by
  unfold lastMeasurements
  exact List.drop_eq_nil_of_le (by omega)

theorem lastOf_iff {amount : Int32} {list : List Measurement} (hlen : list.length < 2 ^ 31) :
    lastOf amount list = lastMeasurements amount list
      ↔ list = [] ∨ list.length - amount.toInt < 2 ^ 31 := by
  have hge : -2 ^ 31 ≤ amount.toInt := amount.le_toInt
  have hlt : amount.toInt < 2 ^ 31 := amount.toInt_lt
  rw [lastOf_bmod hlen]
  by_cases hfits : list.length - amount.toInt < 2 ^ 31
  · have hsub : (list.length - amount.toInt : Int).bmod (2 ^ 32) = list.length - amount.toInt :=
      Int.bmod_eq_of_le (by omega) (by omega)
    refine iff_of_true ?_ (Or.inr hfits)
    rw [hsub]
    by_cases hneg : amount.toInt < 0
    · rw [lastMeasurements_neg list hneg]
      exact List.drop_eq_nil_of_le (by omega)
    · unfold lastMeasurements
      congr 1
      omega
  · -- the amount is negative, the difference too once it has wrapped: nothing is left out
    have hwrap : (list.length - amount.toInt : Int).bmod (2 ^ 32)
        = list.length - amount.toInt - 2 ^ 32 := by
      rw [← Int.sub_bmod_right]
      exact Int.bmod_eq_of_le (by omega) (by omega)
    have hall : (max 0 ((list.length - amount.toInt : Int).bmod (2 ^ 32))).toNat = 0 := by
      rw [hwrap]
      omega
    rw [hall, List.drop_zero, lastMeasurements_neg list (by omega)]
    exact ⟨Or.inl, fun h => h.resolve_right hfits⟩

/-- A query that is not interrupted. -/
theorem run_getPast {host : Host} {s : Store} {user : ApplicationUser} {p : Patient}
    (h : Found s user p) (amount : Int32) :
    (getPastMeasurement user.id amount).run (exec host) (s, Session.start [])
      = (.ok (lastOf amount (rowsOf s.measurements user.id)), (s, Session.start [])) := by
  show (deref (s.users.find? (fun u => u.id = user.id)) >>= _ :
    Handler (List Measurement)).run (exec host) (s, Session.start []) = _
  rw [h.account]
  show (deref (s.patients.find? (fun p => p.userId = user.id)) >>= _ :
    Handler (List Measurement)).run (exec host) (s, Session.start []) = _
  rw [h.patient, ← found_userId h]
  rfl

/-- **The last measurements**, for every amount a client may post: exactly if there are none
at all or the difference `Count() - amount` is an `int`. -/
theorem getPast_iff (host : Host) {s : Store} {user : ApplicationUser} {p : Patient}
    (h : Found s user p) (hlen : (rowsOf s.measurements user.id).length < 2 ^ 31)
    (amount : Int32) :
    (getPastMeasurement user.id amount).run (exec host) (s, Session.start [])
        = (.ok (lastMeasurements amount (rowsOf s.measurements user.id)), (s, Session.start []))
      ↔ rowsOf s.measurements user.id = []
        ∨ (rowsOf s.measurements user.id).length - amount.toInt < 2 ^ 31 := by
  rw [run_getPast h, ← lastOf_iff hlen]
  simp

/-- Ann has measured once. -/
def measuredOnce : Store := ⟨[annUser], [], [⟨0⟩], [⟨0, ⟨1, 5, none⟩⟩], 1, 2⟩

theorem getPast_iff_once :
    (getPastMeasurement annUser.id (-1)).run (exec plainHost) (measuredOnce, Session.start [])
        = (.ok (lastMeasurements (-1) (rowsOf measuredOnce.measurements annUser.id)),
          (measuredOnce, Session.start []))
      ↔ rowsOf measuredOnce.measurements annUser.id = []
        ∨ (rowsOf measuredOnce.measurements annUser.id).length - (-1 : Int32).toInt < 2 ^ 31 :=
  getPast_iff plainHost (p := ⟨0⟩) ⟨rfl, rfl⟩ (by decide) (-1)

/-- The least amount: the one measurement, and not none. -/
theorem getPast_least :
    ¬ ∀ (host : Host) (s : Store) (user : ApplicationUser) (p : Patient), Found s user p →
      (rowsOf s.measurements user.id).length < 2 ^ 31 → ∀ amount : Int32,
        (getPastMeasurement user.id amount).run (exec host) (s, Session.start [])
          = (.ok (lastMeasurements amount (rowsOf s.measurements user.id)),
            (s, Session.start [])) := by
  intro h
  have hrun := h plainHost measuredOnce annUser ⟨0⟩ ⟨rfl, rfl⟩ (by decide) Int32.minValue
  rw [run_getPast ⟨rfl, rfl⟩, lastMeasurements_neg _ (by decide)] at hrun
  simp only [Prod.mk.injEq, Except.ok.injEq, and_true] at hrun
  exact absurd hrun (by decide)

section Query

variable {host : Host} {r : PatientRequest} {me : Nat}

/-- A call that only fails when it is interrupted, and what follows it. -/
theorem follow_call {s s' : Store} {o : Op} {x : o.Res} {k : o.Res → Handler PatientAnswer}
    {sent : List MailMessage} {faults : List Bool} (seen : List Store)
    (h : ∀ l, perform host o (s, l) = (.ok x, (s', l))) :
    (Pool.follow (exec host) ⟨r, .call o k, ⟨sent, faults⟩⟩ (s :: seen)).left
      = if faults.head? = some true then .raise .infrastructure
        else (Pool.follow (exec host) ⟨r, k x, ⟨sent, faults.tail⟩⟩ seen).left := by
  show (Pool.follow (exec host) (Pool.advance (exec host) s _).2 seen).left = _
  rcases faults with _ | ⟨_ | _, fs⟩
  · rw [Pool.advance_ok (show exec host o (s, ⟨sent, []⟩) = _ from h _)]
    rfl
  · rw [Pool.advance_ok (show exec host o (s, ⟨sent, false :: fs⟩) = _ from h _)]
    rfl
  · rw [Pool.advance_error (show exec host o (s, ⟨sent, true :: fs⟩) = _ from rfl),
      Pool.follow_raise]
    rfl

/-- The first turn of a query finds the account. -/
theorem follow_account {s : Store} (h : IsPatient s me) (amount : Int32) (faults : List Bool)
    (seen : List Store) :
    (Pool.follow (exec host) (arrived host (.getPast me amount, faults)) (s :: seen)).left
      = if faults.head? = some true then .raise .infrastructure
        else (Pool.follow (exec host) ⟨PatientRequest.getPast me amount,
          .call (.findPatient me) (fun m => deref m >>= fun m =>
            .call (.measurements m) fun list => .ret (.past (lastOf amount list))),
          ⟨[], faults.tail⟩⟩ seen).left := by
  obtain ⟨user, p, rfl, hfound⟩ := h
  show (Pool.follow (exec host) ⟨_, .call (.findById user.id) _, ⟨[], faults⟩⟩ _).left = _
  rw [follow_call _ (fun l => congrArg (fun x => (Except.ok x, s, l)) hfound.account)]
  congr 4
  exact congrArg (Proc.call (Op.findPatient user.id)) (funext fun m => by cases m <;> rfl)

/-- The second turn finds the patient row. -/
theorem follow_patient {s : Store} (h : IsPatient s me) {k : Patient → Handler PatientAnswer}
    (faults : List Bool) (seen : List Store) :
    ∃ p : Patient, p.userId = me ∧ (Pool.follow (exec host)
        ⟨r, .call (.findPatient me) (fun m => deref m >>= k), ⟨[], faults⟩⟩ (s :: seen)).left
      = if faults.head? = some true then .raise .infrastructure
        else (Pool.follow (exec host) ⟨r, k p, ⟨[], faults.tail⟩⟩ seen).left := by
  obtain ⟨user, p, rfl, hfound⟩ := h
  refine ⟨p, found_userId hfound, ?_⟩
  rw [follow_call _ (fun l => congrArg (fun x => (Except.ok x, s, l)) hfound.patient)]
  rfl

/-- **A query** that has had its three turns. -/
theorem follow_getPast {s₁ s₂ s₃ : Store} (h₁ : IsPatient s₁ me) (h₂ : IsPatient s₂ me)
    (amount : Int32) (faults : List Bool) (seen : List Store) :
    (Pool.follow (exec host) (arrived host (.getPast me amount, faults))
        (s₁ :: s₂ :: s₃ :: seen)).left
      = if true ∈ faults.take 3 then .raise .infrastructure
        else .ret (.past (lastOf amount (rowsOf s₃.measurements me))) := by
  obtain ⟨p, howner, hp⟩ := follow_patient h₂ (faults.tail) (s₃ :: seen)
  rw [follow_account h₁, hp, follow_call _ (fun l => rfl), Pool.follow_ret, howner]
  rcases faults with _ | ⟨_ | _, _ | ⟨_ | _, _ | ⟨_ | _, fs⟩⟩⟩ <;> simp [rowsOf]

/-- A query with fewer turns has not answered. -/
theorem follow_getPast_early {seen : List Store} (h : ∀ s ∈ seen, IsPatient s me)
    (hlen : seen.length < 3) (amount : Int32) (faults : List Bool) (answer : PatientAnswer) :
    (Pool.follow (exec host) (arrived host (.getPast me amount, faults)) seen).left
      ≠ .ret answer := by
  intro hret
  rcases seen with _ | ⟨s₁, _ | ⟨s₂, _ | ⟨s₃, seen⟩⟩⟩
  · cases hret
  · rw [follow_account (h s₁ (by simp))] at hret
    split at hret <;> cases hret
  · obtain ⟨p, -, hp⟩ := follow_patient (h s₂ (by simp)) faults.tail []
    rw [follow_account (h s₁ (by simp)), hp] at hret
    split at hret
    · cases hret
    · split at hret <;> cases hret
  · simp only [List.length_cons] at hlen
    omega

end Query

/-! ## Runs -/

/-- What a run of requests has come to. -/
structure Accounted (host : Host) (s : Store) (reqs : List (PatientRequest × List Bool))
    (sched : List Nat) : Prop where
  /-- The table has the committed measurements, in the order they were committed. -/
  stored : ((received host s reqs).run (exec host) sched).shared.measurements
    = s.measurements ++ filed s.nextMeasurement (commits host (received host s reqs) sched)
  /-- They are what their patients have sent. -/
  sent : ∀ c ∈ commits host (received host s reqs) sched,
    (reqs.map Prod.fst)[c.request]? = some (.add c.patient (some c.measurement))
  /-- No request commits twice. -/
  once : ((commits host (received host s reqs) sched).map Commit.request).Nodup
  /-- A request that says it has saved has committed. -/
  kept : ∀ i th text, ((received host s reqs).run (exec host) sched).threads[i]? = some th →
    th.left = .ret (.saved text) →
      i ∈ (commits host (received host s reqs) sched).map Commit.request
  /-- A query answers from what its patient had committed before its third turn. -/
  answered : ∀ i me amount faults th list, reqs[i]? = some (.getPast me amount, faults) →
    0 ≤ amount.toInt →
    ((received host s reqs).run (exec host) sched).threads[i]? = some th →
    th.left = .ret (.past list) →
      ∃ pre rest, sched = pre ++ i :: rest ∧ pre.count i = 2
        ∧ LastOf (rowsOf (s.measurements
            ++ filed s.nextMeasurement (commits host (received host s reqs) pre)) me) amount list
  /-- It does answer, if none of its calls fails. -/
  answers : ∀ i me amount faults, reqs[i]? = some (.getPast me amount, faults) →
    3 ≤ sched.count i →
      ∃ th, ((received host s reqs).run (exec host) sched).threads[i]? = some th
        ∧ ((∃ list, th.left = .ret (.past list))
          ∨ th.left = .raise .infrastructure ∧ true ∈ faults.take 3)

section Run

variable {host : Host} {s : Store} {reqs : List (PatientRequest × List Bool)}

/-- The table, after any run. -/
theorem run_measurements (h : ∀ r ∈ reqs, IsPatient s r.1.me) (sched : List Nat) :
    ((received host s reqs).run (exec host) sched).shared.measurements
      = s.measurements ++ filed s.nextMeasurement (commits host (received host s reqs) sched) := by
  rw [run_shared sched (holds_received host h), withCommits_eq]
  rfl

theorem isPatient_run {me : Nat} (h : ∀ r ∈ reqs, IsPatient s r.1.me) (hme : IsPatient s me)
    (sched : List Nat) :
    IsPatient ((received host s reqs).run (exec host) sched).shared me := by
  rw [run_shared sched (holds_received host h), withCommits_eq]
  exact isPatient_of_rely hme ⟨rfl, rfl⟩

theorem received_getElem {i : Nat} {r : PatientRequest × List Bool} (h : reqs[i]? = some r) :
    (received host s reqs).threads[i]? = some (arrived host r) := by
  show (reqs.map (arrived host))[i]? = _
  rw [List.getElem?_map, h]
  rfl

theorem received_tags :
    (received host s reqs).threads.map Thread.tag = reqs.map Prod.fst := by
  show (reqs.map (arrived host)).map Thread.tag = _
  rw [List.map_map]
  rfl

/-- Every thread of a run is one of the requests. -/
theorem request_of_thread {i : Nat} {sched : List Nat}
    {th : Thread Op Op.Res Exn PatientAnswer PatientRequest Session}
    (h : ((received host s reqs).run (exec host) sched).threads[i]? = some th) :
    ∃ r, reqs[i]? = some r := by
  have htags := Pool.run_tags (exec host) sched (received host s reqs)
  rw [received_tags] at htags
  have hi := congrArg (fun l => l[i]?) htags
  simp only [List.getElem?_map, h, Option.map_some] at hi
  obtain ⟨r, hr, -⟩ := Option.map_eq_some_iff.mp hi.symm
  exact ⟨r, hr⟩

/-- A request, and the states of its turns. -/
theorem request_thread {i : Nat} {r : PatientRequest × List Bool} (h : reqs[i]? = some r)
    (sched : List Nat) : ((received host s reqs).run (exec host) sched).threads[i]?
      = some (Pool.follow (exec host) (arrived host r)
          (Pool.seen (exec host) i (received host s reqs) sched)) :=
  Pool.run_thread sched (received_getElem h)

theorem isPatient_seen (host : Host) {me : Nat} (i : Nat) (h : ∀ r ∈ reqs, IsPatient s r.1.me)
    (hme : IsPatient s me) (sched : List Nat) :
    ∀ s' ∈ Pool.seen (exec host) i (received host s reqs) sched, IsPatient s' me := by
  intro s' hs'
  obtain ⟨n, hn⟩ := List.mem_iff_getElem?.mp hs'
  obtain ⟨pre, rest, -, -, rfl⟩ := Pool.seen_getElem sched hn
  exact isPatient_run h hme pre

/-- What a query that has had its three turns has ended with, and when it loaded its rows. -/
theorem query_answer (host : Host) {me i : Nat} {amount : Int32} {faults : List Bool}
    (h : ∀ r ∈ reqs, IsPatient s r.1.me) (hi : reqs[i]? = some (.getPast me amount, faults))
    (sched : List Nat) (hturns : 3 ≤ sched.count i) :
    ∃ pre rest, sched = pre ++ i :: rest ∧ pre.count i = 2
      ∧ (Pool.follow (exec host) (arrived host (.getPast me amount, faults))
          (Pool.seen (exec host) i (received host s reqs) sched)).left
        = if true ∈ faults.take 3 then .raise .infrastructure
          else .ret (.past (lastOf amount
            (rowsOf ((received host s reqs).run (exec host) pre).shared.measurements me))) := by
  have hme : IsPatient s me := h _ (List.mem_of_getElem? hi)
  have hpatients := isPatient_seen host i h hme sched
  have hlen := Pool.seen_length (exec host) i sched (received host s reqs)
  rcases hseen : Pool.seen (exec host) i (received host s reqs) sched with
    _ | ⟨s₁, _ | ⟨s₂, _ | ⟨s₃, seen⟩⟩⟩
  · rw [hseen] at hlen
    simp only [List.length_nil] at hlen
    omega
  · rw [hseen] at hlen
    simp only [List.length_cons, List.length_nil] at hlen
    omega
  · rw [hseen] at hlen
    simp only [List.length_cons, List.length_nil] at hlen
    omega
  · rw [hseen] at hpatients
    have hthird : (Pool.seen (exec host) i (received host s reqs) sched)[2]? = some s₃ := by
      rw [hseen]
      rfl
    obtain ⟨pre, rest, hsched, hcount, rfl⟩ := Pool.seen_getElem sched hthird
    exact ⟨pre, rest, hsched, hcount,
      follow_getPast (hpatients s₁ (by simp)) (hpatients s₂ (by simp)) amount faults seen⟩

/-- A request's inserts so far, and those its program has left. -/
theorem commits_count (host : Host) (h : ∀ r ∈ reqs, IsPatient s r.1.me) (sched : List Nat)
    {i : Nat} {r : PatientRequest × List Bool} (hi : reqs[i]? = some r) :
    ∃ n, Inserts (Pool.follow (exec host) (arrived host r)
        (Pool.seen (exec host) i (received host s reqs) sched)).left n
      ∧ ((commits host (received host s reqs) sched).map Commit.request).count i + n = 1 := by
  obtain ⟨th, n, hth, hn, hsum⟩ :=
    inserts_run sched (holds_received host h) (received_getElem hi) (inserts_program host r.1)
  obtain rfl := Option.some.inj (hth.symm.trans (request_thread hi sched))
  exact ⟨n, hn, hsum⟩

theorem commits_request {sched : List Nat} {c : Commit}
    (hc : c ∈ commits host (received host s reqs) sched) :
    (reqs.map Prod.fst)[c.request]? = some (.add c.patient (some c.measurement)) := by
  rw [← received_tags]
  exact commits_sent sched hc

theorem commits_nodup (host : Host) (h : ∀ r ∈ reqs, IsPatient s r.1.me) (sched : List Nat) :
    ((commits host (received host s reqs) sched).map Commit.request).Nodup := by
  refine List.nodup_iff_count_le_one.mpr fun i => ?_
  cases hi : reqs[i]? with
  | some r =>
      obtain ⟨n, -, hsum⟩ := commits_count host h sched hi
      omega
  | none =>
      -- there is no such request
      have hnot : i ∉ (commits host (received host s reqs) sched).map Commit.request := by
        intro hmem
        obtain ⟨c, hc, rfl⟩ := List.mem_map.mp hmem
        have hsent := commits_request hc
        rw [List.getElem?_map, hi] at hsent
        cases hsent
      rw [List.count_eq_zero.mpr hnot]
      exact Nat.zero_le 1

theorem saved_committed (h : ∀ r ∈ reqs, IsPatient s r.1.me) {sched : List Nat} {i : Nat}
    {th : Thread Op Op.Res Exn PatientAnswer PatientRequest Session} {text : Utf16}
    (hth : ((received host s reqs).run (exec host) sched).threads[i]? = some th)
    (hleft : th.left = .ret (.saved text)) :
    i ∈ (commits host (received host s reqs) sched).map Commit.request := by
  obtain ⟨r, hi⟩ := request_of_thread hth
  obtain ⟨n, hn, hsum⟩ := commits_count host h sched hi
  obtain rfl := Option.some.inj (hth.symm.trans (request_thread hi sched))
  rw [hleft] at hn
  -- it has nothing left to insert
  obtain rfl : n = 0 := hn
  exact List.count_pos_iff.mp (by omega)

/-- An answer is the last rows of what the table had at the query's third turn. -/
theorem past_answered (hs : Filed s) (h : ∀ r ∈ reqs, IsPatient s r.1.me) {sched : List Nat}
    {i me : Nat} {amount : Int32} {faults : List Bool}
    {th : Thread Op Op.Res Exn PatientAnswer PatientRequest Session} {list : List Measurement}
    (hi : reqs[i]? = some (.getPast me amount, faults)) (hamount : 0 ≤ amount.toInt)
    (hth : ((received host s reqs).run (exec host) sched).threads[i]? = some th)
    (hleft : th.left = .ret (.past list)) :
    ∃ pre rest, sched = pre ++ i :: rest ∧ pre.count i = 2
      ∧ LastOf (rowsOf (s.measurements
          ++ filed s.nextMeasurement (commits host (received host s reqs) pre)) me)
        amount list := by
  obtain rfl := Option.some.inj (hth.symm.trans (request_thread hi sched))
  have hme : IsPatient s me := h _ (List.mem_of_getElem? hi)
  by_cases hturns : 3 ≤ sched.count i
  · obtain ⟨pre, rest, hsched, hpre, hanswer⟩ := query_answer host h hi sched hturns
    refine ⟨pre, rest, hsched, hpre, ?_⟩
    rw [hleft] at hanswer
    split at hanswer
    · cases hanswer
    · rw [← run_measurements h pre]
      cases hanswer
      exact lastOf_rows (filed_run pre (holds_received host h) hs) me hamount
  · -- it would have answered too early
    refine absurd hleft
      (follow_getPast_early (isPatient_seen host i h hme sched) ?_ amount faults _)
    rw [Pool.seen_length]
    omega

theorem past_answers (host : Host) (h : ∀ r ∈ reqs, IsPatient s r.1.me) {sched : List Nat}
    {i me : Nat} {amount : Int32} {faults : List Bool}
    (hi : reqs[i]? = some (.getPast me amount, faults)) (hturns : 3 ≤ sched.count i) :
    ∃ th, ((received host s reqs).run (exec host) sched).threads[i]? = some th
      ∧ ((∃ list, th.left = .ret (.past list))
        ∨ th.left = .raise .infrastructure ∧ true ∈ faults.take 3) := by
  obtain ⟨pre, rest, -, -, hanswer⟩ := query_answer host h hi sched hturns
  refine ⟨_, request_thread hi sched, ?_⟩
  rw [hanswer]
  split
  · next hfault => exact Or.inr ⟨rfl, hfault⟩
  · exact Or.inl ⟨_, rfl⟩

end Run

/-- **Measurements of overlapping requests.** -/
theorem run_past (host : Host) {s : Store} {reqs : List (PatientRequest × List Bool)}
    (hs : Filed s) (h : ∀ r ∈ reqs, IsPatient s r.1.me) (sched : List Nat) :
    Accounted host s reqs sched where
  stored := run_measurements h sched
  sent _ hc := commits_request hc
  once := commits_nodup host h sched
  kept _ _ _ hth hleft := saved_committed h hth hleft
  answered _ _ _ _ _ _ hi hamount hth hleft := past_answered hs h hi hamount hth hleft
  answers _ _ _ _ hi hturns := past_answers host h hi hturns

/-- Two patients, before their first measurement. -/
def twoPatients : Store := ⟨[annUser, { annUser with id := 1 }], [], [⟨0⟩, ⟨1⟩], [], 2, 1⟩

/-- Both measure, the first of them twice at once, while she looks at her last one. -/
def atOnce : List (PatientRequest × List Bool) :=
  [(.add 0 (some ⟨0, 5, none⟩), []), (.add 1 (some ⟨0, 6, none⟩), []),
    (.add 0 (some ⟨0, 7, none⟩), []), (.getPast 0 1, [])]

theorem run_past_atOnce :
    Accounted plainHost twoPatients atOnce [0, 2, 0, 2, 0, 2, 3, 1, 1, 2, 1, 3, 1, 0, 3] := by
  refine run_past plainHost
    ⟨List.Pairwise.nil, by simp [twoPatients], by decide, by decide⟩ ?_ _
  have hann : IsPatient twoPatients 0 := ⟨annUser, ⟨0⟩, rfl, by decide, by decide⟩
  have hbob : IsPatient twoPatients 1 :=
    ⟨{ annUser with id := 1 }, ⟨1⟩, rfl, by decide, by decide⟩
  simp only [atOnce, List.mem_cons, List.not_mem_nil, or_false]
  rintro r (rfl | rfl | rfl | rfl)
  · exact hann
  · exact hbob
  · exact hann
  · exact hann

end TacPac.Web
