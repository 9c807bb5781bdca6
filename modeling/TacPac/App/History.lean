import TacPac.App.Firebase

/-!
# The history screen

`FirebaseHelper.getMeasurements` and `HistoryViewController`. The query asks for the
first ten readings, which are the oldest; what it returns is a dictionary, and the
screen shows the readings in the order its keys happen to be enumerated in.
-/

namespace TacPac.App

open TacPac.Lib

/-- `queryLimited(toFirst: 10)` on `Patients/<uid>`. -/
def snapshot (db : Db) (uid : Uid) : List (Nat × Reading) := (db.patients uid).limitedToFirst 10

/-- `FirebaseHelper.getMeasurements`, given the order in which `allKeys` enumerates
the snapshot. -/
def getMeasurements (db : Db) (uid : Uid) (allKeys : List Nat) : List Reading :=
  along allKeys (snapshot db uid)

/-- A possible `allKeys`. -/
def Enumerates (allKeys : List Nat) (s : List (Nat × Reading)) : Prop :=
  allKeys.Perm (s.map Prod.fst)

instance (allKeys : List Nat) (s : List (Nat × Reading)) : Decidable (Enumerates allKeys s) :=
  inferInstanceAs (Decidable (allKeys.Perm _))

theorem snapshot_nodup (db : Db) (uid : Uid) : ((snapshot db uid).map Prod.fst).Nodup :=
  (db.patients uid).limitedToFirst_nodup 10

theorem snapshot_values (db : Db) (uid : Uid) :
    (snapshot db uid).map Prod.snd = (db.stored uid).take 10 := List.map_take

/-- What is handed over, in some order: the ten oldest readings. -/
theorem getMeasurements_perm {db : Db} {uid : Uid} {allKeys : List Nat}
    (h : Enumerates allKeys (snapshot db uid)) :
    (getMeasurements db uid allKeys).Perm ((db.stored uid).take 10) := by
  rw [← snapshot_values]
  exact along_perm (snapshot_nodup db uid) h

/-- The last `m` of a list. -/
def mostRecent (m : Nat) (l : List Reading) : List Reading := l.drop (l.length - m)

/-- The readings `uid` has saved. -/
def savedBy (uid : Uid) (saves : List (Uid × Reading)) : List Reading :=
  (saves.filter (fun s => s.1 = uid)).map Prod.snd

/-- **Which readings the history gets.** They are the most recent ten exactly if what
came after the tenth is, reading for reading, what came before the last ten. The
children fetched are the last ones only while there are no more than ten. -/
theorem getMeasurements_recent (saves : List (Uid × Reading)) (uid : Uid) (allKeys : List Nat)
    (h : Enumerates allKeys (snapshot (Db.empty.saveReadings saves) uid)) :
    ((getMeasurements (Db.empty.saveReadings saves) uid allKeys).Perm
        (mostRecent 10 (savedBy uid saves))
      ↔ ((savedBy uid saves).drop 10).Perm
          ((savedBy uid saves).take ((savedBy uid saves).length - 10)))
    ∧ (((snapshot (Db.empty.saveReadings saves) uid).map Prod.fst).Perm
        ((((Db.empty.saveReadings saves).patients uid).limitedToLast 10).map Prod.fst)
      ↔ (savedBy uid saves).length ≤ 10)
    ∧ ((savedBy uid saves).length ≤ 10 →
        (getMeasurements (Db.empty.saveReadings saves) uid allKeys).Perm
          (mostRecent 10 (savedBy uid saves))) := by
  have hstored : (Db.empty.saveReadings saves).stored uid = savedBy uid saves :=
    (Db.stored_saveReadings saves uid Db.empty).trans (List.nil_append _)
  have hperm := getMeasurements_perm h
  rw [hstored] at hperm
  have hexact : (getMeasurements (Db.empty.saveReadings saves) uid allKeys).Perm
      (mostRecent 10 (savedBy uid saves)) ↔ ((savedBy uid saves).drop 10).Perm
        ((savedBy uid saves).take ((savedBy uid saves).length - 10)) := by
    rw [← take_perm_drop]
    exact ⟨fun hrecent => hperm.symm.trans hrecent, fun hends => hperm.trans hends⟩
  have hlen : ((Db.empty.saveReadings saves).patients uid).children.length
      = (savedBy uid saves).length := by
    rw [← hstored]
    exact (List.length_map _).symm
  -- the three parts: the readings, the children, and the short histories
  refine ⟨hexact, ?_, fun hle => hexact.mpr (take_perm_drop_of_le hle)⟩
  rw [← hlen]
  exact Node.firstKeys_perm_lastKeys _ (by decide)

/-- Eleven readings of one user, told apart by their concentrations. -/
def elevenReadings : List (Uid × Reading) :=
  (List.range 11).map (fun i => (0, ⟨UInt64.ofNat i, utf16 "9/16/2017"⟩))

theorem getMeasurements_recent_two :
    (getMeasurements (Db.empty.saveReadings (elevenReadings.take 2)) 0 [1, 0]).Perm
      (mostRecent 10 (savedBy 0 (elevenReadings.take 2))) :=
  (getMeasurements_recent (elevenReadings.take 2) 0 [1, 0] (by decide)).1.mpr (by decide)

/-- With eleven, the one that is missing is the newest. -/
theorem getMeasurements_eleven :
    ¬ ∀ (saves : List (Uid × Reading)) (uid : Uid) (allKeys : List Nat),
      Enumerates allKeys (snapshot (Db.empty.saveReadings saves) uid) →
        (getMeasurements (Db.empty.saveReadings saves) uid allKeys).Perm
          (mostRecent 10 (savedBy uid saves)) := by
  intro h
  have heleven := h elevenReadings 0 (List.range 10) (by decide +kernel)
  revert heleven
  decide +kernel

/-! ## The screen -/

/-- A point of the chart. -/
structure ChartDataEntry where
  x : Nat
  y : UInt64
  deriving DecidableEq

/-- `HistoryViewController`: its array, what the chart plots, and the number of rows
the table has been told. -/
structure HistoryScreen where
  measurements : List Reading
  chart : List ChartDataEntry
  rows : Nat
  deriving DecidableEq

/-- The screen, before anything has been loaded. -/
def HistoryScreen.new : HistoryScreen := ⟨[], [], 0⟩

/-- `updateChartWithData` -/
def chartOf (measurements : List Reading) : List ChartDataEntry :=
  measurements.zipIdx.map (fun m => ⟨m.2, m.1.concentration⟩)

/-- The completion of `viewDidAppear`. -/
def HistoryScreen.show (readings : List Reading) (scr : HistoryScreen) : HistoryScreen :=
  if 0 < readings.length then
    ⟨readings.reverse, chartOf readings.reverse, readings.reverse.length⟩
  else { scr with measurements := readings.reverse }

/-- The reading of `tableView(_:cellForRowAt:)`; `none` is a trap. -/
def HistoryScreen.cellForRow (scr : HistoryScreen) (row : Nat) : Option Reading :=
  if row < scr.measurements.length then scr.measurements[scr.measurements.length - 1 - row]?
  else none

/-- The rows the table shows, from the top. -/
def HistoryScreen.table (scr : HistoryScreen) : List (Option Reading) :=
  (List.range scr.rows).map scr.cellForRow

/-- The screen of the readings `fetched`, given oldest first: the chart plots them in
that order, the table lists them newest first, and the two mirror each other. -/
structure Shows (fetched : List Reading) (scr : HistoryScreen) : Prop where
  chart : scr.chart = chartOf fetched
  table : scr.table = fetched.reverse.map some
  mirror : ∀ row < scr.rows, (scr.cellForRow row).map (·.concentration)
    = (scr.chart[scr.chart.length - 1 - row]?).map (·.y)

/-- The screen after `readings` have been shown. -/
def shown (readings : List Reading) : HistoryScreen :=
  ⟨readings.reverse, chartOf readings.reverse, readings.length⟩

theorem show_eq {readings : List Reading} (scr : HistoryScreen) (h : 0 < readings.length) :
    scr.show readings = shown readings := by
  unfold HistoryScreen.show shown
  rw [if_pos h, List.length_reverse]

/-- The table reads the screen's array backwards. -/
theorem table_shown (readings : List Reading) :
    (shown readings).table = readings.map some := by
  unfold HistoryScreen.table HistoryScreen.cellForRow shown
  refine List.ext_getElem (by simp) fun i hi hi' => ?_
  have hlt : i < readings.length := by simpa using hi'
  have hrev : readings.reverse.length - 1 - i < readings.reverse.length := by
    rw [List.length_reverse]; omega
  rw [List.getElem_map, List.getElem_map, List.getElem_range,
    if_pos (by rw [List.length_reverse]; exact hlt), List.getElem?_eq_getElem hrev,
    List.getElem_reverse]
  refine congrArg some (getElem_congr_idx ?_)
  rw [List.length_reverse]
  omega

/-- An entry of the chart is the reading at its place in the array. -/
theorem chartOf_getElem (measurements : List Reading) (i : Nat) :
    ((chartOf measurements)[i]?).map ChartDataEntry.y
      = (measurements[i]?).map Reading.concentration := by
  unfold chartOf
  rw [List.getElem?_map, List.getElem?_zipIdx, Option.map_map, Option.map_map]
  rfl

theorem mirror_shown (readings : List Reading) (row : Nat) (h : row < (shown readings).rows) :
    ((shown readings).cellForRow row).map Reading.concentration
      = ((shown readings).chart[(shown readings).chart.length - 1 - row]?).map
          ChartDataEntry.y := by
  have hlen : (chartOf readings.reverse).length = readings.reverse.length := by
    simp [chartOf]
  have hrow : row < readings.reverse.length := by rw [List.length_reverse]; exact h
  unfold HistoryScreen.cellForRow shown
  rw [if_pos hrow, chartOf_getElem, hlen]

theorem shows_shown {fetched readings : List Reading} :
    Shows fetched (shown readings) ↔ readings = fetched.reverse := by
  constructor
  · intro h
    have htable := h.table
    rw [table_shown] at htable
    exact List.map_injective_iff.mpr (Option.some_injective Reading) htable
  · intro h
    refine ⟨?_, ?_, mirror_shown readings⟩
    · rw [shown, h, List.reverse_reverse]
    · rw [table_shown, h]

theorem shows_nil : Shows [] (HistoryScreen.new.show []) := by
  refine ⟨rfl, rfl, fun row hrow => ?_⟩
  exact absurd hrow (Nat.not_lt_zero row)

/-- **When the history screen is right**: exactly if the dictionary's keys are
enumerated so that its readings come newest first. A screen belongs to one sign-in and
no reading is ever removed, so one whose user has stored none is still blank. -/
theorem show_shows (db : Db) (uid : Uid) (allKeys : List Nat) (scr : HistoryScreen)
    (h : Enumerates allKeys (snapshot db uid))
    (hscr : snapshot db uid = [] → scr = HistoryScreen.new) :
    Shows ((snapshot db uid).map Prod.snd) (scr.show (getMeasurements db uid allKeys))
      ↔ allKeys.map (valueUnder (snapshot db uid))
          = ((snapshot db uid).map (fun c => some c.2)).reverse := by
  have hsome : ((snapshot db uid).map (fun c => some c.2)).reverse
      = (((snapshot db uid).map Prod.snd).reverse).map some := by
    rw [List.map_reverse, List.map_map]
    rfl
  rw [along_eq (snapshot_nodup db uid) h, hsome,
    (List.map_injective_iff.mpr (Option.some_injective Reading)).eq_iff]
  have hperm : (getMeasurements db uid allKeys).Perm ((snapshot db uid).map Prod.snd) :=
    along_perm (snapshot_nodup db uid) h
  rcases hs : snapshot db uid with _ | ⟨c, cs⟩
  · -- nothing stored: nothing shown, and the screen was blank
    rw [hs] at hperm
    have hnil : getMeasurements db uid allKeys = [] := hperm.eq_nil
    rw [hnil, hscr hs]
    refine ⟨fun _ => ?_, fun _ => shows_nil⟩
    have halong : along allKeys (snapshot db uid) = [] := hnil
    rw [hs] at halong
    exact halong
  · have hpos : 0 < (getMeasurements db uid allKeys).length := by
      rw [hperm.length_eq, hs]
      exact Nat.succ_pos _
    rw [show_eq scr hpos, shows_shown, ← hs]
    exact Iff.rfl

/-- Two readings, enumerated newest first, and then not. -/
theorem show_shows_two : Shows ((elevenReadings.take 2).map Prod.snd)
    (HistoryScreen.new.show
      (getMeasurements (Db.empty.saveReadings (elevenReadings.take 2)) 0 [1, 0])) :=
  (show_shows (Db.empty.saveReadings (elevenReadings.take 2)) 0 [1, 0] HistoryScreen.new
    (by decide) (fun _ => rfl)).mpr (by decide)

theorem show_depends :
    ¬ ∀ (db : Db) (uid : Uid) (allKeys : List Nat), Enumerates allKeys (snapshot db uid) →
      Shows ((snapshot db uid).map Prod.snd)
        (HistoryScreen.new.show (getMeasurements db uid allKeys)) := by
  intro h
  have htwo := (h (Db.empty.saveReadings (elevenReadings.take 2)) 0 [0, 1] (by decide)).chart
  revert htwo
  decide

end TacPac.App
