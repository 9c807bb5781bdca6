import TacPac.Groupme.Serial

/-!
# What the group is told

A branch posts its reply as it ends, and nothing is saved before the last branch
has ended. So a reply may announce what is never committed. What can be relied on
is weaker (`msg_announces`): a call that returns has committed all it announced,
and a call that raises has committed nothing, unless all that failed is the post
that follows the save.
-/

namespace TacPac.Groupme

open TacPac.Lib

/-- A mention finds the same people however far the marks have got. -/
theorem found_markAll (u : Int64) (diff : Int) (ms : List (Int64 × Utf16))
    (phis : List Phikeia) : found u (phis.map (Phikeia.markAll diff ms)) = found u phis := by
  unfold found
  rw [List.any_map]
  refine congrArg (fun p => phis.any p) (funext fun r => ?_)
  show decide ((r.markAll diff ms).groupmeId = u) = _
  rw [Phikeia.markAll_groupmeId]

/-- Everything an order announces is in the table: `t` is the table before. -/
structure Kept (t : Table Phikeia) (o : Order) (t' : Table Phikeia) : Prop where
  /-- A new row for each registration announced, repetitions included. -/
  registrations : (t'.rows.drop t.rows.length).map Phikeia.account = o.opened.map openAccount
  /-- Each row that was there has all the points announced for its holder. -/
  points : ∀ r ∈ t.rows, ∃ r' ∈ t'.rows, r'.id = r.id ∧ r'.groupmeId = r.groupmeId
    ∧ r'.points = r.points + Int32.ofInt (o.diff * occurrences r.groupmeId o.marks)
  /-- A mention announces a change exactly when there is such a row. -/
  found : ∀ m ∈ o.marks, ∀ ms, found m.1 (t.rows.map (Phikeia.markAll o.diff ms)) = true ↔
    ∃ r ∈ t.rows, r.groupmeId = m.1

theorem kept_of_committed {t t' : Table Phikeia} {g : GroupmeBindingModel} {o : Order}
    {log : List Effect} (h : Committed t g o t' log) : Kept t o t' := by
  refine ⟨?_, fun r hr => ?_, fun m _ ms => ?_⟩
  · -- the rows that were there come first
    have hdrop : t'.rows.drop t.rows.length
        = Table.keyed t.nextKey (o.opened.map newPhikeia) := by
      rw [h.rows, List.drop_left' (by rw [List.length_map])]
    rw [hdrop, keyed_account]
  · refine ⟨r.markAll o.diff o.marks, ?_, Phikeia.markAll_id _ _ r,
      Phikeia.markAll_groupmeId _ _ r, Phikeia.markAll_points _ _ r⟩
    rw [h.rows]
    exact List.mem_append_left _ (List.mem_map_of_mem hr)
  · rw [found_markAll]
    simp [Groupme.found]

/-- **What a call tells the group, against what it commits.** -/
theorem msg_announces (t : Table Phikeia) (g : Option GroupmeBindingModel) (fs : List Fault) :
    match (msg g).run exec (t, Session.start fs) with
    | (.ok _, w) => ∃ m o, g = some m ∧ Committed t m o w.1 w.2.log ∧ Kept t o w.1
    | (.error e, w) => (w.1 = t ∧ Effect.saved ∉ w.2.log)
        ∨ (e = .web ∧ ∃ m o, g = some m ∧ Committed t m o w.1 w.2.log ∧ Kept t o w.1) := by
  have h := msg_alone t g fs
  rcases hq : (msg g).run exec (t, Session.start fs) with ⟨e | _, w⟩
  · rw [hq] at h
    rcases h with h | ⟨he, m, o, hm, hc⟩
    · exact Or.inl h
    · exact Or.inr ⟨he, m, o, hm, hc, kept_of_committed hc⟩
  · rw [hq] at h
    obtain ⟨m, o, hm, hc⟩ := h
    exact ⟨m, o, hm, hc, kept_of_committed hc⟩

/-- The save fails after the reply has gone out: `A Registered!`, and nobody is. -/
theorem msg_announces_unsaved :
    ¬ ∀ (t : Table Phikeia) (g : Option GroupmeBindingModel) (fs : List Fault),
      match (msg g).run exec (t, Session.start fs) with
      | (.error _, w) => w.1.rows = t.rows ∧ ∀ text, Effect.posted text ∈ w.2.log →
          text.contains (utf16 " Registered!") = false
      | (.ok _, _) => True := by
  intro h
  have hrun : (msg (some registerA)).run exec (Table.empty, Session.start [.none, .none, .before])
      = (.error .infrastructure, Table.empty, ⟨Context.new.add (newPhikeia (1, utf16 "A")),
          [.posted (utf16 "A Registered!\n")], []⟩) := by rfl
  have hreply := h Table.empty (some registerA) [.none, .none, .before]
  rw [hrun] at hreply
  have hno := hreply.2 (utf16 "A Registered!\n") List.mem_cons_self
  exact absurd hno (by decide)

end TacPac.Groupme
