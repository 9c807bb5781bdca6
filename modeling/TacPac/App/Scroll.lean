import TacPac.App.History

/-!
# Scrolling the history

The readings of a completion always replace the screen's array, but the chart is drawn
again and the table told to reload only if there are any. So a completion without
readings, after one with some, leaves a table that asks for rows of an empty array.
-/

namespace TacPac.App

open TacPac.Lib

/-- What happens to the table view. -/
inductive TableEvent where
  /-- A completion of `getMeasurements`. -/
  | delivered (readings : List Reading)
  /-- The table view asks for a cell. -/
  | cell (row : Nat)

/-- The lists delivered, in order. -/
def deliveries : List TableEvent → List (List Reading)
  | [] => []
  | .delivered readings :: es => readings :: deliveries es
  | .cell _ :: es => deliveries es

namespace HistoryScreen

/-- The table view only asks for rows that it was told of when it last reloaded. -/
def Asks : HistoryScreen → List TableEvent → Prop
  | _, [] => True
  | scr, .delivered readings :: es => Asks (scr.show readings) es
  | scr, .cell row :: es => row < scr.rows ∧ Asks scr es

/-- The table and the chart are as long as the array. -/
structure Agrees (scr : HistoryScreen) : Prop where
  rows : scr.rows = scr.measurements.length
  chart : scr.chart.length = scr.measurements.length

/-- The three agree after each completion, and no cell is outside the array. -/
def KeepsUp : HistoryScreen → List TableEvent → Prop
  | _, [] => True
  | scr, .delivered readings :: es =>
      Agrees (scr.show readings) ∧ KeepsUp (scr.show readings) es
  | scr, .cell row :: es => scr.cellForRow row ≠ none ∧ KeepsUp scr es

theorem agrees_new : Agrees new := ⟨rfl, rfl⟩

theorem agrees_shown (readings : List Reading) : Agrees (shown readings) := by
  refine ⟨?_, ?_⟩
  · exact List.length_reverse.symm
  · simp [shown, chartOf]

theorem shown_ne_nil {readings : List Reading} (h : readings ≠ []) :
    (shown readings).measurements ≠ [] := fun hnil => h (List.reverse_eq_nil_iff.mp hnil)

theorem show_nil (scr : HistoryScreen) : scr.show [] = { scr with measurements := [] } := rfl

/-- A completion without readings: only a blank screen still agrees, and it is unchanged. -/
theorem agrees_show_nil {scr : HistoryScreen} (h : Agrees scr) :
    Agrees (scr.show []) ↔ scr.measurements = [] := by
  rw [show_nil]
  constructor
  · intro hnil
    have hlen : scr.measurements.length = 0 := h.rows.symm.trans hnil.rows
    exact List.length_eq_zero_iff.mp hlen
  · intro hnil
    have hrows := h.rows
    have hchart := h.chart
    rw [hnil] at hrows hchart
    exact ⟨hrows, hchart⟩

theorem show_nil_self {scr : HistoryScreen} (h : scr.measurements = []) : scr.show [] = scr := by
  rw [show_nil, ← h]

theorem cellForRow_of_agrees {scr : HistoryScreen} (h : Agrees scr) {row : Nat}
    (hrow : row < scr.rows) : scr.cellForRow row ≠ none := by
  have hlt : row < scr.measurements.length := h.rows ▸ hrow
  have hback : scr.measurements.length - 1 - row < scr.measurements.length := by omega
  unfold cellForRow
  rw [if_pos hlt, List.getElem?_eq_getElem hback]
  simp

/-- No empty list after one with readings. -/
def Steady (lists : List (List Reading)) : Prop :=
  ∀ pre post, lists = pre ++ [] :: post → ∀ readings ∈ pre, readings = []

theorem steady_nil_cons (lists : List (List Reading)) : Steady ([] :: lists) ↔ Steady lists := by
  constructor
  · intro h pre post heq readings hmem
    exact h ([] :: pre) post (by rw [heq]; rfl) readings (List.mem_cons_of_mem _ hmem)
  · intro h pre post heq readings hmem
    rcases pre with _ | ⟨first, pre⟩
    · cases hmem
    · obtain ⟨hfirst, htail⟩ := List.cons.inj heq
      rcases List.mem_cons.mp hmem with hr | hr
      · rw [hr, ← hfirst]
      · exact h pre post htail readings hr

theorem steady_cons {readings : List Reading} {lists : List (List Reading)} (h : readings ≠ []) :
    Steady (readings :: lists) ↔ [] ∉ lists := by
  constructor
  · intro hsteady hmem
    obtain ⟨pre, post, heq⟩ := List.append_of_mem hmem
    exact h (hsteady (readings :: pre) post (by rw [heq]; rfl) readings List.mem_cons_self)
  · intro hnone pre post heq
    rcases pre with _ | ⟨first, pre⟩
    · exact absurd (List.cons.inj heq).1 h
    · refine absurd ?_ hnone
      rw [(List.cons.inj heq).2]
      simp

/-- Once there are readings on the screen, an empty list is what it does not stand. -/
theorem keepsUp_filled (es : List TableEvent) : ∀ {scr : HistoryScreen}, Agrees scr →
    scr.measurements ≠ [] → Asks scr es → (KeepsUp scr es ↔ [] ∉ deliveries es) := by
  induction es with
  | nil =>
      intro scr _ _ _
      simp [KeepsUp, deliveries]
  | cons e es ih =>
      intro scr h hfull hasks
      cases e with
      | delivered readings =>
          rcases eq_or_ne readings [] with hnil | hne
          · rw [hnil]
            simp only [KeepsUp, deliveries]
            rw [agrees_show_nil h]
            simp [hfull]
          · have hshow := show_eq scr (List.length_pos_iff.mpr hne)
            simp only [KeepsUp, deliveries, Asks] at hasks ⊢
            rw [hshow] at hasks ⊢
            rw [ih (agrees_shown readings) (shown_ne_nil hne) hasks]
            simp [agrees_shown, hne.symm]
      | cell row =>
          simp only [KeepsUp, deliveries, Asks] at hasks ⊢
          rw [ih h hfull hasks.2]
          simp [cellForRow_of_agrees h hasks.1]

theorem keepsUp_blank (es : List TableEvent) : ∀ {scr : HistoryScreen}, Agrees scr →
    scr.measurements = [] → Asks scr es → (KeepsUp scr es ↔ Steady (deliveries es)) := by
  induction es with
  | nil =>
      intro scr _ _ _
      simp [KeepsUp, deliveries, Steady]
  | cons e es ih =>
      intro scr h hblank hasks
      cases e with
      | delivered readings =>
          rcases eq_or_ne readings [] with hnil | hne
          · rw [hnil] at hasks ⊢
            simp only [KeepsUp, deliveries, Asks] at hasks ⊢
            rw [show_nil_self hblank] at hasks
            rw [agrees_show_nil h, show_nil_self hblank, ih h hblank hasks, steady_nil_cons]
            simp [hblank]
          · -- the first readings
            have hshow := show_eq scr (List.length_pos_iff.mpr hne)
            simp only [KeepsUp, deliveries, Asks] at hasks ⊢
            rw [hshow] at hasks ⊢
            rw [keepsUp_filled es (agrees_shown readings) (shown_ne_nil hne) hasks,
              steady_cons hne]
            simp [agrees_shown]
      | cell row =>
          -- a blank table has no rows to ask for
          simp only [Asks] at hasks
          have hzero : scr.rows = 0 := by rw [h.rows, hblank]; rfl
          omega

/-- **When the table keeps up with the readings**: over any completions and requests for
cells, exactly if no empty list is delivered after one that was not. -/
theorem keepsUp_iff (es : List TableEvent) (h : Asks new es) :
    KeepsUp new es ↔ ∀ pre post, deliveries es = pre ++ [] :: post →
      ∀ readings ∈ pre, readings = [] :=
  keepsUp_blank es agrees_new rfl h

/-- Nothing, and then a reading, which is looked at. -/
def arrival : List TableEvent :=
  [.delivered [], .delivered [⟨0, utf16 "9/16/2017"⟩], .cell 0]

theorem keepsUp_arrival : KeepsUp new arrival :=
  (keepsUp_iff arrival ⟨Nat.zero_lt_one, trivial⟩).mpr
    ((steady_nil_cons _).mpr ((steady_cons (by simp)).mpr (by simp [deliveries])))

/-- It is gone, and is looked at again. -/
theorem keepsUp_emptied :
    ¬ ∀ es : List TableEvent, Asks new es → KeepsUp new es := by
  intro h
  have hgone := h [.delivered [⟨0, utf16 "9/16/2017"⟩], .delivered [], .cell 0]
    ⟨Nat.zero_lt_one, trivial⟩
  exact hgone.2.2.1 rfl

end HistoryScreen

end TacPac.App
