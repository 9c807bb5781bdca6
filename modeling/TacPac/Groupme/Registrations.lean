import TacPac.Groupme.Overlap

/-!
# Registrations of overlapping requests

Overlapping requests can lose points (`Overlap.lean`). They cannot lose people: a
save appends the rows its own request added, under keys nobody has had, and what it
writes to the rows of the others never is a key or a holder.

So the table after any run seats whoever it seated before, in their places, and then
whoever the requests that saved have registered, in the order of the saves
(`registrations_kept`). A request that returns has saved, and saved once.
-/

namespace TacPac.Groupme

open TacPac.Lib

/-- What no save changes of a row: its key and its holder. -/
def Phikeia.seat (r : Phikeia) : Nat × Int64 := (r.id, r.groupmeId)

/-- The seats of new rows, under consecutive keys. -/
def seatsFrom (k : Nat) (es : List (Int64 × Utf16)) : List (Nat × Int64) :=
  (es.zipIdx k).map fun x => (x.2, x.1.1)

theorem seatsFrom_append (k : Nat) (es es' : List (Int64 × Utf16)) :
    seatsFrom k (es ++ es') = seatsFrom k es ++ seatsFrom (k + es.length) es' := by
  unfold seatsFrom
  rw [List.zipIdx_append, List.map_append]

theorem keyed_seat (es : List (Int64 × Utf16)) : ∀ k : Nat,
    (Table.keyed k (es.map newPhikeia)).map Phikeia.seat = seatsFrom k es := by
  induction es with
  | nil => intro k; rfl
  | cons e es ih =>
      intro k
      rw [List.map_cons, Table.keyed, List.map_cons, ih]
      rfl

/-! ## What a save does to the seats -/

/-- A context that has not moved a row to another holder. -/
def KeepsHolders (c : Context Phikeia) : Prop :=
  ∀ k e, c.tracked k = some e → e.current.groupmeId = e.original.groupmeId

theorem seat_write {c : Context Phikeia} (h : KeepsHolders c) (r : Phikeia) :
    (c.write r).seat = r.seat := by
  refine Prod.ext (c.key_write r) ?_
  show (c.write r).groupmeId = r.groupmeId
  unfold Context.write
  split
  · next e he =>
      show changed e.original.groupmeId e.current.groupmeId r.groupmeId = r.groupmeId
      rw [h _ e he, changed_same]
  · rfl

theorem seats_save {t : Table Phikeia} {c : Context Phikeia} {es : List (Int64 × Utf16)}
    (h : KeepsHolders c) (hadd : c.added = es.map newPhikeia) :
    (t.save c).rows.map Phikeia.seat = t.rows.map Phikeia.seat ++ seatsFrom t.nextKey es
      ∧ (t.save c).nextKey = t.nextKey + es.length := by
  refine ⟨?_, by rw [Table.save_nextKey, hadd, List.length_map]⟩
  rw [Table.save_rows, List.map_append, hadd, keyed_seat, List.map_map]
  exact congrArg (· ++ _) (List.map_congr_left fun r _ => seat_write h r)

theorem keepsHolders_load {c : Context Phikeia} (h : KeepsHolders c) (t : Table Phikeia) :
    KeepsHolders (c.load t) := by
  intro k e he
  rcases load_tracked_cases he with hc | ⟨-, r, -, -, rfl⟩
  · exact h k e hc
  · rfl

theorem keepsHolders_credited {c : Context Phikeia} (hk : c.WellKeyed) (h : KeepsHolders c)
    (diff : Int) (m : Int64 × Utf16) (t : Table Phikeia) :
    KeepsHolders (credited diff m (c.view t) (c.load t)) := by
  intro k e he
  have hall := Context.setAll_tracked (p := fun r => decide (r.groupmeId = m.1))
    (fun r => Phikeia.mark_id diff r m) k (c.view t) (Context.view_nodup hk t)
    (fun x hx => Context.load_tracked_view hk hx)
  rw [credited, hall] at he
  obtain ⟨e', he', rfl⟩ := Option.map_eq_some_iff.mp he
  have hholder := keepsHolders_load h t k e' he'
  split
  · exact (Phikeia.mark_groupmeId diff e'.current m).trans hholder
  · exact hholder

/-! ## What each request guarantees -/

/-- A step saves nothing and leaves the table alone; or it is the one save of the
request, of a context that has added whom its message registers. -/
def Enters (body : Option GroupmeBindingModel) (w w' : World) : Prop :=
  (w'.1 = w.1 ∧ (Effect.saved ∈ w'.2.log ↔ Effect.saved ∈ w.2.log))
  ∨ (Effect.saved ∉ w.2.log ∧ Effect.saved ∈ w'.2.log ∧ w'.1 = w.1.save w.2.ctx
      ∧ KeepsHolders w.2.ctx
      ∧ ∃ g, body = some g ∧ w.2.ctx.added = (registered g).map newPhikeia)

/-- The requests need nothing of each other, and return only when they have saved. -/
def registering :
    Pool.Contract Op Op.Res Exn Unit (Option GroupmeBindingModel) (Table Phikeia) Session where
  rely _ _ := True
  guar := Enters
  done _ _ w := Effect.saved ∈ w.2.log
  failed _ _ _ := True
  refl _ := trivial
  trans _ _ _ _ _ := trivial
  rely_of_guar _ _ _ _ := trivial
  done_stable _ _ _ _ _ _ h := h
  failed_stable _ _ _ _ _ _ h := h

theorem ambient_registering (body : Option GroupmeBindingModel) :
    Ambient registering.rely (Enters body) (fun _ => True) :=
  ⟨fun _ _ h _ => h, fun _ _ _ _ hlog => Or.inl ⟨rfl, hlog⟩⟩

/-- **Every request keeps the contract**, on any table. -/
theorem receive_registering (t : Table Phikeia) (c : Call) :
    registering.Meets exec t (receive c) := by
  refine wp_msg (R := registering.rely) (G := Enters c.body) (I := fun _ => True)
    trivial (fun _ _ _ _ => trivial) ?_
  intro m text hm htext
  refine meets_mono (meets_branches (ambient_registering c.body)
    (fun _ _ c => c.WellKeyed ∧ KeepsHolders c) (Q := fun _ c log =>
      Effect.saved ∉ log ∧ KeepsHolders c ∧ c.added = (registered m).map newPhikeia)
    htext ⟨t, trivial⟩ ?_ ?_ ?_) ?_
  · intro es
    refine ⟨Context.wellKeyed_new, fun k e he => ?_⟩
    exact absurd he (by simp [addNew, Context.new])
  · intro ms x _ c t h _
    exact ⟨Context.wellKeyed_setAll _ (Context.wellKeyed_load h.1 t),
      keepsHolders_credited h.1 h.2 _ x t⟩
  · intro o marked c t ho h hadd _
    have hadded : c.added = (registered m).map newPhikeia := by rw [registered_eq ho]; exact hadd
    refine ⟨saved_notMem_repliesLog, ?_⟩
    split
    · exact ⟨keepsHolders_load h.2 t, hadded⟩
    · exact ⟨h.2, hadded⟩
  · intro _ ctx log hdone t fs _
    obtain ⟨hlog, hholders, hadded⟩ := hdone
    refine wp_finish (fun t₁ fs' _ => ⟨Or.inl ⟨rfl, Iff.rfl⟩, trivial⟩)
      (fun t₁ fs' _ => Or.inr ⟨hlog, ?_, rfl, hholders, m, hm, hadded⟩)
      (fun t₂ tail _ _ => Or.inl ⟨rfl, ?_⟩) (fun _ _ _ _ _ _ _ => ⟨?_, trivial⟩)
    · simp [Session.saved]
    · simp [Session.saved]
    · show Effect.saved ∈ (Session.saved _ _ _).log
      simp [Session.saved]

/-! ## Runs -/

/-- The message of the request that saves when it is the turn of thread `i`, if one does. -/
def saverAt (p : Requests) (i : Nat) : Option GroupmeBindingModel :=
  (savedBy p i).bind fun _ => p.threads[i]?.bind Thread.tag

/-- The messages saved in a run, in the order of the saves. -/
def savers (p : Requests) : List Nat → List GroupmeBindingModel
  | [] => []
  | i :: sched => (saverAt p i).toList ++ savers (p.step exec i) sched

/-- The message of a request that has saved. -/
def savedTag (th : Request) : Option GroupmeBindingModel :=
  if Effect.saved ∈ th.own.log then th.tag else none

theorem saverAt_eq {p : Requests} {i : Nat} {th th' : Request} (hold : p.threads[i]? = some th)
    (hnew : (p.step exec i).threads[i]? = some th') :
    saverAt p i = if Effect.saved ∉ th.own.log ∧ Effect.saved ∈ th'.own.log
      then th.tag else none := by
  unfold saverAt savedBy
  rw [hold, hnew]
  by_cases hs : Effect.saved ∉ th.own.log ∧ Effect.saved ∈ th'.own.log
  · simp only [hs, and_self, not_false_eq_true, if_true, Option.bind_some]
  · simp only [hs, if_false, Option.bind_none]

/-- One turn: what is appended is what the saver registers, if one saves. -/
theorem step_registrations {p : Requests} (h : p.Holds registering exec) (i : Nat) :
    (p.step exec i).shared.rows.map Phikeia.seat = p.shared.rows.map Phikeia.seat
        ++ seatsFrom p.shared.nextKey ((saverAt p i).toList.flatMap registered)
    ∧ (p.step exec i).shared.nextKey
        = p.shared.nextKey + ((saverAt p i).toList.flatMap registered).length
    ∧ ((p.step exec i).threads.filterMap savedTag).Perm
        ((saverAt p i).toList ++ p.threads.filterMap savedTag) := by
  rcases Pool.step_cases h i with hsame | ⟨pre, th, post, t', th', hth, hi, hstep, htag, hguar⟩
  · -- nothing has moved, so nothing was saved
    have hnone : saverAt p i = none := by
      cases hth : p.threads[i]? with
      | none => unfold saverAt savedBy; rw [hth]; rfl
      | some th =>
          rw [saverAt_eq hth (by rw [hsame]; exact hth)]
          exact if_neg (fun hn => hn.1 hn.2)
    rw [hsame, hnone]
    refine ⟨by simp [seatsFrom], by simp, List.Perm.refl _⟩
  · have hold : p.threads[i]? = some th := by
      rw [hth, hi, List.getElem?_append_right (Nat.le_refl _), Nat.sub_self]; rfl
    have hnew : (p.step exec i).threads[i]? = some th' := by
      rw [hstep, hi]
      show (pre ++ th' :: post)[pre.length]? = some th'
      rw [List.getElem?_append_right (Nat.le_refl _), Nat.sub_self]; rfl
    rw [saverAt_eq hold hnew, hstep, hth]
    rcases hguar with ⟨htable, hlog⟩ | ⟨hbefore, hafter, htable, hholders, g, hg, hadded⟩
    · -- a step before the save or after it
      have hsame : t' = p.shared := htable
      have hnone : ¬ (Effect.saved ∉ th.own.log ∧ Effect.saved ∈ th'.own.log) := by
        rw [show Effect.saved ∈ th'.own.log ↔ Effect.saved ∈ th.own.log from hlog]
        exact fun hn => hn.1 hn.2
      have htags : savedTag th' = savedTag th := by
        unfold savedTag
        rw [htag]
        exact if_congr hlog rfl rfl
      rw [if_neg hnone, hsame]
      refine ⟨by simp [seatsFrom], by simp, ?_⟩
      rw [List.filterMap_append, List.filterMap_append, List.filterMap_cons, List.filterMap_cons,
        htags]
      exact List.Perm.refl _
    · -- the save
      have htags : savedTag th' = some g := by
        unfold savedTag
        rw [if_pos hafter, htag, hg]
      have htagsOld : savedTag th = none := if_neg hbefore
      obtain ⟨hseats, hkey⟩ := seats_save (t := p.shared) hholders hadded
      have hsave : t' = p.shared.save th.own.ctx := htable
      rw [if_pos ⟨hbefore, hafter⟩, hg, hsave]
      refine ⟨by simpa using hseats, by simpa using hkey, ?_⟩
      simp only [List.filterMap_append, List.filterMap_cons, htags, htagsOld, Option.toList_some,
        List.singleton_append]
      exact List.perm_middle

/-- A run. -/
theorem run_registrations (sched : List Nat) : ∀ {p : Requests}, p.Holds registering exec →
    (p.run exec sched).shared.rows.map Phikeia.seat = p.shared.rows.map Phikeia.seat
        ++ seatsFrom p.shared.nextKey ((savers p sched).flatMap registered)
    ∧ ((p.run exec sched).threads.filterMap savedTag).Perm
        (savers p sched ++ p.threads.filterMap savedTag)
    ∧ (p.run exec sched).Holds registering exec := by
  induction sched with
  | nil =>
      intro p h
      exact ⟨by simp [savers, seatsFrom, Pool.run], List.Perm.refl _, h⟩
  | cons i sched ih =>
      intro p h
      obtain ⟨hseats, hkey, hperm⟩ := step_registrations h i
      obtain ⟨hseats', hperm', hholds⟩ := ih (Pool.step_holds h i)
      refine ⟨?_, ?_, hholds⟩
      · show ((p.step exec i).run exec sched).shared.rows.map Phikeia.seat = _
        rw [hseats', hseats, hkey, List.append_assoc, ← seatsFrom_append, ← List.flatMap_append]
        rfl
      · show (((p.step exec i).run exec sched).threads.filterMap savedTag).Perm _
        rw [savers, List.append_assoc]
        exact (hperm'.trans (List.Perm.append_left _ hperm)).trans
          (List.perm_append_comm_assoc _ _ _)

theorem savedTag_start (t : Table Phikeia) (cs : List Call) :
    (Requests.start t cs).threads.filterMap savedTag = [] := by
  refine List.filterMap_eq_nil_iff.mpr fun th hth => ?_
  obtain ⟨c, -, rfl⟩ := List.mem_map.mp hth
  exact if_neg (by simp [receive, Session.start])

theorem savedTag_all {threads : List Request} (cs : List Call)
    (htags : threads.map Thread.tag = cs.map Call.body)
    (hsaved : ∀ th ∈ threads, Effect.saved ∈ th.own.log) :
    threads.filterMap savedTag = cs.filterMap Call.body := by
  have htag : threads.filterMap savedTag = (threads.map Thread.tag).filterMap id := by
    rw [List.filterMap_map]
    exact List.filterMap_congr fun th hth => if_pos (hsaved th hth)
  rw [htag, htags, List.filterMap_map]
  rfl

/-- Seats of new rows have fresh keys, each larger than the one before. -/
theorem seatsFrom_keys (t : Table Phikeia) (es : List (Int64 × Utf16)) :
    ∃ keys : List Nat, seatsFrom t.nextKey es = keys.zip (es.map Prod.fst)
      ∧ keys.length = es.length ∧ keys.Pairwise (· < ·)
      ∧ ∀ r ∈ t.rows, ∀ k ∈ keys, r.id < k := by
  refine ⟨List.range' t.nextKey es.length, ?_, List.length_range', List.pairwise_lt_range', ?_⟩
  · refine List.zip_of_prod ?_ ?_
    · rw [seatsFrom, List.map_map]
      exact List.zipIdx_map_snd t.nextKey es
    · rw [seatsFrom, List.map_map]
      conv_rhs => rw [← List.zipIdx_map_fst t.nextKey es, List.map_map]
      rfl
  · intro r hr k hk
    have hold : r.id < t.nextKey := t.bound r hr
    have hnew := (List.mem_range'_1.mp hk).1
    omega

/-- **Nobody registered is lost, and nobody is entered twice**, in whatever order the
calls of overlapping requests are made and whichever of them fail. The rows of the
table keep their keys and holders; after them come the people registered by the
messages that were saved, in the order of the saves and under fresh keys that increase;
each message that has been saved is in that order once; and a request that has returned
has saved. -/
theorem registrations_kept (t₀ : Table Phikeia) (cs : List Call) (sched : List Nat) :
    let p := (Requests.start t₀ cs).run exec sched
    let ms := savers (Requests.start t₀ cs) sched
    (∃ keys : List Nat, p.shared.rows.map Phikeia.seat
        = t₀.rows.map Phikeia.seat ++ keys.zip ((ms.flatMap registered).map Prod.fst)
      ∧ keys.length = (ms.flatMap registered).length ∧ keys.Pairwise (· < ·)
      ∧ ∀ r ∈ t₀.rows, ∀ k ∈ keys, r.id < k)
    ∧ ms.Perm (p.threads.filterMap savedTag)
    ∧ ((∀ th ∈ p.threads, th.left = .ret ()) → ms.Perm (cs.filterMap Call.body)) := by
  intro p ms
  have hstart : (Requests.start t₀ cs).Holds registering exec := by
    intro th hth
    obtain ⟨c, -, rfl⟩ := List.mem_map.mp hth
    exact receive_registering _ c
  obtain ⟨hseats, hperm, hholds⟩ := run_registrations sched hstart
  rw [savedTag_start, List.append_nil] at hperm
  refine ⟨?_, hperm.symm, fun hdone => hperm.symm.trans ?_⟩
  · obtain ⟨keys, hkeys, hlength, hincreasing, hfresh⟩ := seatsFrom_keys t₀ (ms.flatMap registered)
    exact ⟨keys, hkeys ▸ hseats, hlength, hincreasing, hfresh⟩
  have htags : p.threads.map Thread.tag = cs.map Call.body := by
    show ((Requests.start t₀ cs).run exec sched).threads.map Thread.tag = _
    rw [Pool.run_tags]
    show (cs.map receive).map Thread.tag = _
    rw [List.map_map]
    rfl
  have hsaved : ∀ th ∈ p.threads, Effect.saved ∈ th.own.log := by
    intro th hth
    have hmeets := hholds th hth
    unfold Pool.Contract.Meets at hmeets
    rw [hdone th hth] at hmeets
    exact hmeets
  rw [show p.threads.filterMap savedTag = cs.filterMap Call.body from savedTag_all cs htags hsaved]

end TacPac.Groupme
