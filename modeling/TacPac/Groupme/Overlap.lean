import TacPac.Groupme.Serial
import TacPac.Lib.Pool

/-!
# Overlapping calls

Between the query that reads a balance and the save that writes it a request
posts its replies, so another request can commit in between. The save does not
notice: it writes the balance it has computed, and what the other request had
added is gone.

`points_accounted` says exactly how much: in any run of any number of requests, a
row has its initial points, plus what the requests that saved were asked to add,
plus what each save has overwritten. A save that finds the points its request had
read overwrites nothing.
-/

namespace TacPac.Groupme

open TacPac.Lib

/-- Requests under way, each tagged with its body. -/
abbrev Requests : Type :=
  Pool Op Op.Res Exn Unit (Option GroupmeBindingModel) (Table Phikeia) Session

/-- A request under way. -/
abbrev Request : Type := Thread Op Op.Res Exn Unit (Option GroupmeBindingModel) Session

/-- A request that has just come in. -/
def receive (c : Call) : Request := ⟨c.body, msg c.body, Session.start c.faults⟩

/-- The requests of these calls, none of which has had a turn. -/
def Requests.start (t : Table Phikeia) (cs : List Call) : Requests := ⟨t, cs.map receive⟩

/-! ## What a request knows of its context -/

/-- Every row of `t₀` is still there, and still its holder's. -/
def Standing (t₀ t : Table Phikeia) : Prop :=
  ∀ r₀ ∈ t₀.rows, ∃ r ∈ t.rows, r.id = r₀.id ∧ r.groupmeId = r₀.groupmeId

/-- The context of a request that has credited the mentions `ms`. A row may have
been read before any of the others' saves or after, but once it is tracked it has
had all of `ms`. -/
structure Tracks (t₀ : Table Phikeia) (diff : Int) (ms : List (Int64 × Utf16))
    (c : Context Phikeia) : Prop where
  keyed : c.WellKeyed
  holder : ∀ k e, c.tracked k = some e → e.current.groupmeId = e.original.groupmeId
  unread : ∀ r₀ ∈ t₀.rows, c.tracked r₀.id = none → ms = []
  read : ∀ r₀ ∈ t₀.rows, ∀ e, c.tracked r₀.id = some e →
    e.original.groupmeId = r₀.groupmeId ∧ e.current = e.original.markAll diff ms

theorem tracks_new (t₀ : Table Phikeia) (diff : Int) (added : List Phikeia) :
    Tracks t₀ diff [] { Context.new with added := added } := by
  refine ⟨Context.wellKeyed_new, fun k e he => ?_, fun _ _ _ => rfl, fun r₀ _ e he => ?_⟩
  · exact absurd he (by simp [Context.new])
  · exact absurd he (by simp [Context.new])

/-- What a query adds to the tracked rows. -/
theorem load_tracked_cases {c : Context Phikeia} {t : Table Phikeia} {k : Nat}
    {e : Entry Phikeia} (he : (c.load t).tracked k = some e) :
    c.tracked k = some e ∨ c.tracked k = none ∧ ∃ r ∈ t.rows, r.id = k ∧ e = ⟨r, r⟩ := by
  rcases hc : c.tracked k with _ | e'
  · simp only [Context.load, hc, Option.map_eq_some_iff] at he
    obtain ⟨r, hr, rfl⟩ := he
    obtain ⟨hmem, hkey⟩ := Table.mem_of_find hr
    exact Or.inr ⟨rfl, r, hmem, hkey, rfl⟩
  · rw [Context.load_tracked_of_some hc] at he
    exact Or.inl he

/-- After a query every row of `t₀` is tracked. -/
theorem load_tracked_standing {t₀ t : Table Phikeia} (ht : Standing t₀ t)
    (c : Context Phikeia) {r₀ : Phikeia} (hr₀ : r₀ ∈ t₀.rows) :
    ∃ e, (c.load t).tracked r₀.id = some e := by
  obtain ⟨r, hr, hid, -⟩ := ht r₀ hr₀
  rcases hc : c.tracked r₀.id with _ | e
  · rw [← hid] at hc ⊢
    exact ⟨⟨r, r⟩, Context.load_tracked_of_none hr hc⟩
  · exact ⟨e, Context.load_tracked_of_some hc⟩

theorem tracks_load {t₀ t : Table Phikeia} {diff : Int} {ms : List (Int64 × Utf16)}
    {c : Context Phikeia} (ht : Standing t₀ t) (h : Tracks t₀ diff ms c) :
    Tracks t₀ diff ms (c.load t) := by
  refine ⟨Context.wellKeyed_load h.keyed t, fun k e he => ?_, fun r₀ hr₀ hnone => ?_,
    fun r₀ hr₀ e he => ?_⟩
  · rcases load_tracked_cases he with hc | ⟨-, r, -, -, rfl⟩
    · exact h.holder k e hc
    · rfl
  · obtain ⟨e, he⟩ := load_tracked_standing ht c hr₀
    rw [he] at hnone
    exact absurd hnone (by simp)
  · rcases load_tracked_cases he with hc | ⟨hnone, r, hr, hid, rfl⟩
    · exact h.read r₀ hr₀ e hc
    · -- first read now, so nothing had been credited to anybody yet
      obtain ⟨r', hr', hid', hholder⟩ := ht r₀ hr₀
      have hsame : r = r' := t.key_inj hr hr' (hid.trans hid'.symm)
      rw [h.unread r₀ hr₀ hnone, hsame]
      exact ⟨hholder, rfl⟩

theorem tracks_credited {t₀ t : Table Phikeia} {diff : Int} {ms : List (Int64 × Utf16)}
    {c : Context Phikeia} (ht : Standing t₀ t) (h : Tracks t₀ diff ms c)
    (m : Int64 × Utf16) : Tracks t₀ diff (ms ++ [m]) (credited diff m (c.view t) (c.load t)) := by
  have hload := tracks_load ht h
  have hall := fun k => Context.setAll_tracked (p := fun r => decide (r.groupmeId = m.1))
    (fun r => Phikeia.mark_id diff r m) k (c.view t) (Context.view_nodup h.keyed t)
    (fun x hx => Context.load_tracked_view h.keyed hx)
  refine ⟨Context.wellKeyed_setAll _ hload.keyed, fun k e he => ?_, fun r₀ hr₀ hnone => ?_,
    fun r₀ hr₀ e he => ?_⟩
  · rw [credited, hall k] at he
    obtain ⟨e', he', rfl⟩ := Option.map_eq_some_iff.mp he
    have hholder := hload.holder k e' he'
    split
    · exact (Phikeia.mark_groupmeId diff e'.current m).trans hholder
    · exact hholder
  · obtain ⟨e', he'⟩ := load_tracked_standing ht c hr₀
    rw [credited, hall r₀.id, he'] at hnone
    exact absurd hnone (by simp)
  · obtain ⟨r, hr, hid, -⟩ := ht r₀ hr₀
    obtain ⟨e', he'⟩ := load_tracked_standing ht c hr₀
    obtain ⟨horig, hcur⟩ := hload.read r₀ hr₀ e' he'
    rw [← hid] at he he'
    have hset : (credited diff m (c.view t) (c.load t)).tracked r.id = _ :=
      Context.setAll_load_tracked (p := fun r : Phikeia => decide (r.groupmeId = m.1))
        (fun r => Phikeia.mark_id diff r m) h.keyed hr he'
    rw [hset] at he
    injection he with he
    rw [Phikeia.markAll_snoc]
    by_cases hm : e'.current.groupmeId = m.1
    · rw [if_pos (by simpa using hm)] at he
      rw [← he]
      exact ⟨horig, congrArg (fun r => Phikeia.mark diff r m) hcur⟩
    · rw [if_neg (by simpa using hm)] at he
      rw [← he]
      refine ⟨horig, ?_⟩
      have hmark : e'.current.mark diff m = e'.current := if_neg hm
      rw [← hcur, hmark]

/-! ## What a save does to a row -/

/-- What the request of a context about to be saved adds to the rows of `t₀`. -/
structure Credits (t₀ : Table Phikeia) (g : GroupmeBindingModel) (c : Context Phikeia) :
    Prop where
  keyed : c.WellKeyed
  holder : ∀ k e, c.tracked k = some e → e.current.groupmeId = e.original.groupmeId
  unread : ∀ r₀ ∈ t₀.rows, c.tracked r₀.id = none → pointsFor r₀.groupmeId g = 0
  read : ∀ r₀ ∈ t₀.rows, ∀ e, c.tracked r₀.id = some e →
    e.current.points = e.original.points + Int32.ofInt (pointsFor r₀.groupmeId g)

theorem credits_of_tracks {t₀ : Table Phikeia} {g : GroupmeBindingModel} {o : Order}
    {c : Context Phikeia} (ho : orderOf g = some o) (h : Tracks t₀ o.diff o.marks c) :
    Credits t₀ g c := by
  refine ⟨h.keyed, h.holder, fun r₀ hr₀ hnone => ?_, fun r₀ hr₀ e he => ?_⟩
  · rw [pointsFor_eq ho, h.unread r₀ hr₀ hnone]
    simp [occurrences]
  · obtain ⟨hholder, hcur⟩ := h.read r₀ hr₀ e he
    rw [pointsFor_eq ho, hcur, Phikeia.markAll_points, hholder]

/-- What the save of `s.2` on `s.1` overwrites of the points of row `k`: the
difference between what its request had read and what is committed by now. -/
def overwritten (k : Nat) (s : Table Phikeia × Context Phikeia) : Int32 :=
  match s.1.find k, s.2.tracked k with
  | some r, some e =>
      if e.original.points = e.current.points then 0 else e.original.points - r.points
  | _, _ => 0

/-- If the save writes the points of row `k`, it finds them as its request had read them. -/
def inTime (k : Nat) (s : Table Phikeia × Context Phikeia) : Bool :=
  match s.1.find k, s.2.tracked k with
  | some r, some e => e.original.points = e.current.points || r.points = e.original.points
  | _, _ => true

theorem overwritten_inTime {k : Nat} {s : Table Phikeia × Context Phikeia}
    (h : inTime k s = true) : overwritten k s = 0 := by
  unfold inTime at h
  unfold overwritten
  rcases hr : s.1.find k with _ | r
  · rfl
  · rcases he : s.2.tracked k with _ | e
    · rfl
    · rw [hr, he] at h
      show (if e.original.points = e.current.points then 0 else e.original.points - r.points) = 0
      split
      · rfl
      · next hne =>
          have hread : r.points = e.original.points := by simpa [hne] using h
          rw [hread]
          exact Int32.sub_self _

/-- **One save, one row.** It adds what its message says, and what it overwrites. -/
theorem save_points {t₀ t : Table Phikeia} {g : GroupmeBindingModel} {c : Context Phikeia}
    (h : Credits t₀ g c) {r₀ r : Phikeia} (hr₀ : r₀ ∈ t₀.rows) (hr : r ∈ t.rows)
    (hid : r.id = r₀.id) : (c.write r).groupmeId = r.groupmeId
      ∧ (c.write r).points
          = r.points + Int32.ofInt (pointsFor r₀.groupmeId g) + overwritten r₀.id (t, c) := by
  have hfind : t.find r₀.id = some r := by rw [← hid]; exact t.find_key hr
  unfold Context.write overwritten
  rw [key_eq, hid, hfind]
  rcases hc : c.tracked r₀.id with _ | e
  · rw [h.unread r₀ hr₀ hc]
    exact ⟨rfl, by simp⟩
  · have hpoints := h.read r₀ hr₀ e hc
    have hholder := h.holder _ e hc
    refine ⟨?_, ?_⟩
    · show changed e.original.groupmeId e.current.groupmeId r.groupmeId = r.groupmeId
      rw [hholder, changed_same]
    · show changed e.original.points e.current.points r.points
        = r.points + Int32.ofInt (pointsFor r₀.groupmeId g)
          + if e.original.points = e.current.points then 0 else e.original.points - r.points
      unfold changed
      split
      · next hsame =>
          -- the columns agree: nothing is written, and nothing was to be added
          have hzero : Int32.ofInt (pointsFor r₀.groupmeId g) = 0 := by
            rw [← hsame] at hpoints
            grind
          rw [hzero, Int32.add_zero, Int32.add_zero]
      · next hdiff =>
          rw [hpoints]
          grind

/-! ## What each request guarantees -/

/-- A step of a request that does not save leaves the table alone; one that saves
writes the context of an order carried out. Either way nobody loses a row. -/
structure Guarantees (t₀ : Table Phikeia) (body : Option GroupmeBindingModel)
    (w w' : World) : Prop where
  standing : Standing t₀ w.1 → Standing t₀ w'.1
  quietOrSaves : (w'.1 = w.1 ∧ (Effect.saved ∈ w'.2.log ↔ Effect.saved ∈ w.2.log))
    ∨ (Effect.saved ∉ w.2.log ∧ Effect.saved ∈ w'.2.log ∧ w'.1 = w.1.save w.2.ctx
        ∧ ∃ g, body = some g ∧ Credits t₀ g w.2.ctx)

/-- What the requests of one pool promise each other: the rows of `t₀` stay. -/
def contract (t₀ : Table Phikeia) :
    Pool.Contract Op Op.Res Exn Unit (Option GroupmeBindingModel) (Table Phikeia) Session where
  rely t t' := Standing t₀ t → Standing t₀ t'
  guar := Guarantees t₀
  done _ _ _ := True
  failed _ _ _ := True
  refl _ h := h
  trans _ _ _ h h' hs := h' (h hs)
  rely_of_guar _ _ _ h := h.standing
  done_stable _ _ _ _ _ _ _ := trivial
  failed_stable _ _ _ _ _ _ _ := trivial

theorem ambient_contract (t₀ : Table Phikeia) (body : Option GroupmeBindingModel) :
    Ambient (contract t₀).rely (Guarantees t₀ body) (Standing t₀) :=
  ⟨fun _ _ h hR => hR h, fun _ _ _ _ hlog => ⟨id, Or.inl ⟨rfl, hlog⟩⟩⟩

theorem standing_save {t₀ t : Table Phikeia} {c : Context Phikeia}
    (hholder : ∀ k e, c.tracked k = some e → e.current.groupmeId = e.original.groupmeId)
    (h : Standing t₀ t) : Standing t₀ (t.save c) := by
  intro r₀ hr₀
  obtain ⟨r, hr, hid, hgid⟩ := h r₀ hr₀
  refine ⟨c.write r, Table.mem_save c hr, (c.key_write r).trans hid, ?_⟩
  rw [← hgid]
  unfold Context.write
  split
  · next e he =>
      show changed e.original.groupmeId e.current.groupmeId r.groupmeId = r.groupmeId
      rw [hholder _ e he, changed_same]
  · rfl

/-- **Every request keeps the contract**, whatever it was sent. -/
theorem receive_meets {t₀ : Table Phikeia} (c : Call) :
    (contract t₀).Meets exec t₀ (receive c) := by
  have hstart : Standing t₀ t₀ := fun r₀ hr₀ => ⟨r₀, hr₀, rfl, rfl⟩
  refine wp_msg (R := (contract t₀).rely) (G := Guarantees t₀ c.body) (I := Standing t₀)
    hstart (fun _ _ _ _ => trivial) ?_
  intro m text hm htext
  refine meets_mono (meets_branches (ambient_contract t₀ c.body)
    (fun ms _ c => Tracks t₀ (diffOf text) ms c) (Q := fun _ c log =>
      Effect.saved ∉ log ∧ Credits t₀ m c) htext ⟨t₀, hstart⟩ ?_ ?_ ?_) ?_
  · intro es
    exact tracks_new t₀ _ _
  · intro ms x _ c t h ht
    exact tracks_credited ht h x
  · intro o marked c t ho h _ ht
    rw [← diff_of_orderOf htext ho] at h
    refine ⟨saved_notMem_repliesLog, credits_of_tracks ho ?_⟩
    split
    · exact tracks_load ht h
    · exact h
  · intro _ ctx log hdone t fs _
    obtain ⟨hlog, hcredits⟩ := hdone
    refine wp_finish (fun t₁ fs' _ => ⟨⟨id, Or.inl ⟨rfl, Iff.rfl⟩⟩, trivial⟩)
      (fun t₁ fs' _ => ⟨standing_save hcredits.holder, Or.inr ⟨hlog, ?_, rfl, m, hm, hcredits⟩⟩)
      (fun t₂ tail _ _ => ⟨id, Or.inl ⟨rfl, ?_⟩⟩) (fun _ _ _ _ _ _ _ => ⟨trivial, trivial⟩)
    · simp [Session.saved]
    · simp [Session.saved]

/-! ## The accounts of a run -/

/-- What a request has been asked to add to the balances of `u`, once it has saved. -/
def askedOf (u : Int64) (th : Request) : Int :=
  match th.tag with
  | some g => if Effect.saved ∈ th.own.log then pointsFor u g else 0
  | none => 0

/-- What the requests that have saved were asked to add, in all. -/
def asked (u : Int64) (p : Requests) : Int := (p.threads.map (askedOf u)).sum

/-- The save made when it is the turn of thread `i`, if that is its step. -/
def savedBy (p : Requests) (i : Nat) : Option (Table Phikeia × Context Phikeia) :=
  match p.threads[i]?, (p.step exec i).threads[i]? with
  | some th, some th' =>
      if Effect.saved ∉ th.own.log ∧ Effect.saved ∈ th'.own.log then some (p.shared, th.own.ctx)
      else none
  | _, _ => none

/-- The saves of a run: the table each found, and the context it wrote. -/
def saves (p : Requests) : List Nat → List (Table Phikeia × Context Phikeia)
  | [] => []
  | i :: sched => (savedBy p i).toList ++ saves (p.step exec i) sched

/-- One turn, one row. -/
theorem step_points {t₀ : Table Phikeia} {p : Requests} (h : p.Holds (contract t₀) exec)
    (i : Nat) {r₀ r : Phikeia} (hr₀ : r₀ ∈ t₀.rows) (hr : r ∈ p.shared.rows)
    (hid : r.id = r₀.id) : ∃ r' ∈ (p.step exec i).shared.rows, r'.id = r₀.id
      ∧ r'.groupmeId = r.groupmeId
      ∧ r'.points = r.points
          + Int32.ofInt (asked r₀.groupmeId (p.step exec i) - asked r₀.groupmeId p)
          + ((savedBy p i).toList.map (overwritten r₀.id)).sum := by
  rcases Pool.step_cases h i with hsame | ⟨pre, th, post, t', th', hth, hi, hstep, htag, hguar⟩
  · -- nothing has moved, so nothing was saved
    have hnone : savedBy p i = none := by
      unfold savedBy
      rw [hsame]
      cases p.threads[i]? with
      | none => rfl
      | some th => exact if_neg (fun hn => hn.1 hn.2)
    rw [hsame, hnone]
    refine ⟨r, hr, hid, rfl, ?_⟩
    simp
  · have hold : p.threads[i]? = some th := by
      rw [hth, hi, List.getElem?_append_right (Nat.le_refl _), Nat.sub_self]; rfl
    have hnew : (p.step exec i).threads[i]? = some th' := by
      rw [hstep, hi]
      show (pre ++ th' :: post)[pre.length]? = some th'
      rw [List.getElem?_append_right (Nat.le_refl _), Nat.sub_self]; rfl
    have hasked : asked r₀.groupmeId (p.step exec i) - asked r₀.groupmeId p
        = askedOf r₀.groupmeId th' - askedOf r₀.groupmeId th := by
      unfold asked
      rw [hstep, hth]
      simp only [List.map_append, List.map_cons, List.sum_append, List.sum_cons]
      omega
    rw [hasked]
    unfold savedBy
    rw [hold, hnew, hstep]
    rcases hguar.quietOrSaves with ⟨htable, hlog⟩ | ⟨hbefore, hafter, htable, g, hg, hcredits⟩
    · -- a step before the save or after it
      have hcredit : askedOf r₀.groupmeId th' = askedOf r₀.groupmeId th := by
        unfold askedOf
        rw [htag]
        simp only [hlog]
      have hsame : t' = p.shared := htable
      refine ⟨r, hsame ▸ hr, hid, rfl, ?_⟩
      rw [hcredit]
      simp only [hlog, not_and_self, if_false]
      simp
    · -- the save: from now on the request counts
      have hcredit : askedOf r₀.groupmeId th' - askedOf r₀.groupmeId th
          = pointsFor r₀.groupmeId g := by
        unfold askedOf
        rw [htag, hg]
        simp only [hbefore, hafter, if_true, if_false]
        omega
      obtain ⟨hgid, hpoints⟩ := save_points hcredits hr₀ hr hid
      refine ⟨th.own.ctx.write r, ?_, (Context.key_write _ r).trans hid, hgid, ?_⟩
      · show _ ∈ t'.rows
        rw [show t' = p.shared.save th.own.ctx from htable]
        exact Table.mem_save _ hr
      · rw [hcredit, hpoints]
        simp [hbefore, hafter]

/-- A run, one row. -/
theorem run_points {t₀ : Table Phikeia} {r₀ : Phikeia} (hr₀ : r₀ ∈ t₀.rows)
    (sched : List Nat) : ∀ {p : Requests} {r : Phikeia}, p.Holds (contract t₀) exec →
      r ∈ p.shared.rows → r.id = r₀.id → ∃ r' ∈ (p.run exec sched).shared.rows, r'.id = r₀.id
        ∧ r'.groupmeId = r.groupmeId
        ∧ r'.points = r.points
            + Int32.ofInt (asked r₀.groupmeId (p.run exec sched) - asked r₀.groupmeId p)
            + ((saves p sched).map (overwritten r₀.id)).sum := by
  induction sched with
  | nil =>
      intro p r _ hr hid
      refine ⟨r, hr, hid, rfl, ?_⟩
      show r.points = r.points + Int32.ofInt (asked r₀.groupmeId p - asked r₀.groupmeId p) + 0
      rw [Int.sub_self, Int32.add_zero]
      simp
  | cons i sched ih =>
      intro p r h hr hid
      obtain ⟨r₁, hr₁, hid₁, hgid₁, hpoints₁⟩ := step_points h i hr₀ hr hid
      obtain ⟨r₂, hr₂, hid₂, hgid₂, hpoints₂⟩ := ih (Pool.step_holds h i) hr₁ hid₁
      refine ⟨r₂, hr₂, hid₂, hgid₂.trans hgid₁, ?_⟩
      have hsum : asked r₀.groupmeId (p.run exec (i :: sched)) - asked r₀.groupmeId p
          = (asked r₀.groupmeId (p.step exec i) - asked r₀.groupmeId p)
            + (asked r₀.groupmeId ((p.step exec i).run exec sched)
                - asked r₀.groupmeId (p.step exec i)) := by
        show asked r₀.groupmeId ((p.step exec i).run exec sched) - asked r₀.groupmeId p = _
        omega
      have hsaves : ((saves p (i :: sched)).map (overwritten r₀.id)).sum
          = ((savedBy p i).toList.map (overwritten r₀.id)).sum
            + ((saves (p.step exec i) sched).map (overwritten r₀.id)).sum := by
        rw [saves]
        rcases savedBy p i with _ | s
        · simp
        · simp
      rw [hpoints₂, hpoints₁, hsum, hsaves, Int32.ofInt_add]
      grind

/-- What a list of messages asks to be added to the balances of `u`. -/
def askedIn (u : Int64) (cs : List Call) : Int := ((cs.filterMap Call.body).map (pointsFor u)).sum

theorem asked_start (t : Table Phikeia) (cs : List Call) (u : Int64) :
    asked u (Requests.start t cs) = 0 := by
  unfold asked Requests.start
  rw [List.map_map]
  induction cs with
  | nil => rfl
  | cons c cs ih =>
      rw [List.map_cons, List.sum_cons, ih]
      show (match c.body with
        | some g => if Effect.saved ∈ (Session.start c.faults).log then pointsFor u g else 0
        | none => 0) + 0 = 0
      cases c.body with
      | none => rfl
      | some g => simp [Session.start]

/-- Once every request has saved, everything asked for is asked for. -/
theorem asked_all {u : Int64} (cs : List Call) : ∀ {threads : List Request},
    threads.map Thread.tag = cs.map Call.body →
    (∀ th ∈ threads, Effect.saved ∈ th.own.log) →
      (threads.map (askedOf u)).sum = askedIn u cs := by
  induction cs with
  | nil =>
      intro threads htags _
      rw [List.map_nil, List.map_eq_nil_iff] at htags
      rw [htags]
      rfl
  | cons c cs ih =>
      intro threads htags hsaved
      cases threads with
      | nil => exact absurd htags (by simp)
      | cons th threads =>
          rw [List.map_cons, List.map_cons] at htags
          injection htags with htag htags
          rw [List.map_cons, List.sum_cons,
            ih htags (fun x hx => hsaved x (List.mem_cons_of_mem _ hx))]
          unfold askedOf askedIn
          rw [htag]
          have hs := hsaved th List.mem_cons_self
          cases hb : c.body with
          | none => simp [hb]
          | some g => simp [hb, hs]

/-- **The points of a row after any run of overlapping requests.** They are its
initial points, what the requests that have saved were asked to add, and what each
save has overwritten. So nothing is lost in a run whose saves all come in time. -/
theorem points_accounted (t₀ : Table Phikeia) (cs : List Call) (sched : List Nat)
    (r₀ : Phikeia) (hr₀ : r₀ ∈ t₀.rows) :
    ∃ r ∈ ((Requests.start t₀ cs).run exec sched).shared.rows,
      r.id = r₀.id ∧ r.groupmeId = r₀.groupmeId
      ∧ r.points = r₀.points
          + Int32.ofInt (asked r₀.groupmeId ((Requests.start t₀ cs).run exec sched))
          + ((saves (Requests.start t₀ cs) sched).map (overwritten r₀.id)).sum
      ∧ ((∀ th ∈ ((Requests.start t₀ cs).run exec sched).threads, Effect.saved ∈ th.own.log) →
          (∀ s ∈ saves (Requests.start t₀ cs) sched, inTime r₀.id s = true) →
          r.points = r₀.points + Int32.ofInt (askedIn r₀.groupmeId cs)) := by
  have hstart : (Requests.start t₀ cs).Holds (contract t₀) exec := by
    intro th hth
    obtain ⟨c, -, rfl⟩ := List.mem_map.mp hth
    exact receive_meets c
  obtain ⟨r, hr, hid, hgid, hpoints⟩ := run_points hr₀ sched hstart hr₀ rfl
  rw [asked_start, Int.sub_zero] at hpoints
  refine ⟨r, hr, hid, hgid, hpoints, fun hsaved htime => ?_⟩
  have htags : ((Requests.start t₀ cs).run exec sched).threads.map Thread.tag
      = cs.map Call.body := by
    rw [Pool.run_tags]
    show (cs.map receive).map Thread.tag = _
    rw [List.map_map]
    rfl
  -- saves in time overwrite nothing
  have hzero : ((saves (Requests.start t₀ cs) sched).map (overwritten r₀.id)).sum = 0 := by
    have hall : ∀ l : List (Table Phikeia × Context Phikeia), (∀ s ∈ l, inTime r₀.id s = true) →
        (l.map (overwritten r₀.id)).sum = 0 := by
      intro l
      induction l with
      | nil => intro _; rfl
      | cons s l ih =>
          intro hl
          rw [List.map_cons, List.sum_cons, overwritten_inTime (hl s List.mem_cons_self),
            ih (fun x hx => hl x (List.mem_cons_of_mem _ hx))]
          rfl
    exact hall _ htime
  rw [hpoints, hzero, Int32.add_zero]
  exact congrArg (fun n => r₀.points + Int32.ofInt n) (asked_all cs htags hsaved)

/-- A table with one row. -/
def ledgerA : Table Phikeia := Table.empty.insert ⟨0, 1, utf16 "A", 0⟩

/-- `@A merit`, tagging the holder of the row. -/
def meritA : Call :=
  ⟨some ⟨some [some ⟨some (utf16 "mentions"), some [some [0, 2]], some [1]⟩],
    some (utf16 "@A merit")⟩, []⟩

/-- A table with two. -/
def ledgerAB : Table Phikeia := ledgerA.insert ⟨0, 2, utf16 "B", 0⟩

/-- `@B merit`, tagging the holder of the other row. -/
def meritB : Call :=
  ⟨some ⟨some [some ⟨some (utf16 "mentions"), some [some [0, 2]], some [2]⟩],
    some (utf16 "@B merit")⟩, []⟩

/-- One for `A` and one for `B` at once, and another for `A` that reads between their saves. -/
theorem points_accounted_apart :
    ∃ r ∈ ((Requests.start ledgerAB [meritA, meritB, meritA]).run exec
        [0, 1, 0, 1, 0, 1, 0, 2, 1, 2, 2, 2]).shared.rows,
      r.id = 1 ∧ r.points = 0 + Int32.ofInt (askedIn 1 [meritA, meritB, meritA]) := by
  obtain ⟨r, hr, hid, -, -, hnone⟩ := points_accounted ledgerAB [meritA, meritB, meritA]
    [0, 1, 0, 1, 0, 1, 0, 2, 1, 2, 2, 2] ⟨1, 1, utf16 "A", 0⟩ (by decide)
  exact ⟨r, hr, hid, hnone (by decide +kernel) (by decide +kernel)⟩

/-- Two for `A` at once: one point is lost. -/
theorem points_accounted_overlapping :
    ¬ ∀ (t₀ : Table Phikeia) (cs : List Call) (sched : List Nat),
      (∀ th ∈ ((Requests.start t₀ cs).run exec sched).threads, Effect.saved ∈ th.own.log) →
      ∀ r₀ ∈ t₀.rows, ∀ r ∈ ((Requests.start t₀ cs).run exec sched).shared.rows,
        r.id = r₀.id → r.points = r₀.points + Int32.ofInt (askedIn r₀.groupmeId cs) := by
  intro h
  have hlost := h ledgerA [meritA, meritA] [0, 1, 0, 1, 0, 1, 0, 1] (by decide +kernel)
    ⟨1, 1, utf16 "A", 0⟩ (by decide) ⟨1, 1, utf16 "A", 1⟩ (by decide +kernel) rfl
  exact absurd hlost (by decide +kernel)

end TacPac.Groupme
