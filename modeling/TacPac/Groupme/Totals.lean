import TacPac.Groupme.Replies
import TacPac.Lib.Keyed

/-!
# The totals a merit quotes

The reply is put together while the rows it speaks of are being changed, mention by
mention, and each mention queries the table again. Because those queries return the
tracked rows, the `i`-th sentence counts the mentions up to and including its own, and
the score listing of the same message shows what is about to be committed.
-/

namespace TacPac.Groupme

open TacPac.Lib

/-- The row of `u`. -/
def rowOf (u : Int64) (phis : List Phikeia) : Option Phikeia :=
  phis.find? (fun r => r.groupmeId = u)

/-- The sentence for the mention `m`, after `seen` mentions with its own among them. -/
def sentenceAfter (diff : Int) (phis : List Phikeia) (seen : List (Int64 × Utf16))
    (m : Int64 × Utf16) : Utf16 :=
  match rowOf m.1 phis with
  | none => utf16 "Could not find " ++ m.2 ++ utf16 "!\n"
  | some r =>
      (if diff = 1 then utf16 "1 Point for " ++ m.2 ++ utf16 "! NICE!"
        else utf16 "1 Point REMOVED from " ++ m.2 ++ utf16 "!Fucking Phikeia!")
      ++ utf16 " Total of "
      ++ utf16 (toString (r.points + Int32.ofInt (diff * occurrences m.1 seen)).toInt)
      ++ utf16 " points\n"

/-- The sentence for the entry `i`. -/
def sentenceAt (diff : Int) (phis : List Phikeia) (ms : List (Int64 × Utf16)) (i : Nat) :
    Utf16 :=
  (ms[i]?.map (sentenceAfter diff phis (ms.take (i + 1)))).getD []

/-- The line of a row in the score. -/
def listed (r : Phikeia) : Utf16 :=
  r.name ++ utf16 " : " ++ utf16 (toString r.points.toInt) ++ utf16 "\n"

/-- What a merit has posted when it is saved: `phis` are the rows before it, and `rows` the
same rows as they are committed. -/
def toldLog (text : Utf16) (g : GroupmeBindingModel) (o : Order) (phis rows : List Phikeia) :
    List Effect :=
  (if text.contains (utf16 "register") then [.posted (registerPost g o.announced)] else [])
  ++ (if (lastMentions g).isSome then
      [.posted ((List.range o.marks.length).flatMap (sentenceAt o.diff phis o.marks))] else [])
  ++ (if text.contains (utf16 "@bot") && text.contains (utf16 "score") then
      [.posted (utf16 "Score:\n" ++ rows.flatMap listed)] else [])

theorem sentenceAt_append (diff : Int) (phis : List Phikeia) (ms ms' : List (Int64 × Utf16))
    {i : Nat} (h : i < ms.length) :
    sentenceAt diff phis (ms ++ ms') i = sentenceAt diff phis ms i := by
  unfold sentenceAt
  rw [List.getElem?_append_left h, List.take_append_of_le_length h]

theorem sentenceAt_last (diff : Int) (phis : List Phikeia) (ms : List (Int64 × Utf16))
    (m : Int64 × Utf16) : sentenceAt diff phis (ms ++ [m]) ms.length
      = sentenceAfter diff phis (ms ++ [m]) m := by
  unfold sentenceAt
  rw [List.getElem?_concat_length, List.take_of_length_le (by simp)]
  rfl

theorem occurrences_snoc (u : Int64) (ms : List (Int64 × Utf16)) (m : Int64 × Utf16) :
    occurrences u (ms ++ [m]) = occurrences u ms + if u = m.1 then 1 else 0 := by
  unfold occurrences
  rw [List.map_append, List.count_append]
  by_cases h : u = m.1
  · simp [h]
  · have h' : ¬ m.1 = u := fun e => h e.symm
    simp [h, h']

theorem found_eq (u : Int64) (phis : List Phikeia) : found u phis = (rowOf u phis).isSome := by
  unfold found rowOf
  exact List.isSome_find?.symm

/-- What a mention finds while the marks of `ms` are pending. -/
theorem total_markAll {phis : List Phikeia} (hphis : (phis.map Phikeia.groupmeId).Nodup)
    (diff : Int) (ms : List (Int64 × Utf16)) (m : Int64 × Utf16) {r : Phikeia}
    (hr : rowOf m.1 phis = some r) :
    total diff m.1 (phis.map (Phikeia.markAll diff ms))
      = r.points + Int32.ofInt (diff * occurrences m.1 (ms ++ [m])) := by
  unfold rowOf at hr
  have hholder : r.groupmeId = m.1 := by simpa using List.find?_some hr
  have hfilter : (phis.map (Phikeia.markAll diff ms)).filter (fun r => r.groupmeId = m.1)
      = [r.markAll diff ms] := by
    rw [List.filter_map]
    have hpred : (fun r : Phikeia => decide (r.groupmeId = m.1)) ∘ Phikeia.markAll diff ms
        = fun r => decide (r.groupmeId = m.1) := by
      funext r
      show decide ((r.markAll diff ms).groupmeId = m.1) = _
      rw [Phikeia.markAll_groupmeId]
    rw [hpred, filter_of_nodup hphis, hr]
    rfl
  have hsum : diff * ((occurrences m.1 ms + 1 : Nat) : Int)
      = diff * (occurrences m.1 ms : Int) + diff := by
    rw [Int.natCast_add, Int.natCast_one, Int.mul_add, Int.mul_one]
  unfold total
  rw [hfilter, occurrences_snoc, if_pos rfl, hsum, Int32.ofInt_add, ← Int32.add_assoc]
  show (r.markAll diff ms).points + Int32.ofInt diff = _
  rw [Phikeia.markAll_points, hholder]

/-- A merit adds one, or takes one away. -/
theorem ofInt_diffOf (text : Utf16) : Int32.ofInt (diffOf text) = 1 ↔ diffOf text = 1 := by
  unfold diffOf
  split
  · decide
  · split <;> decide

/-- **The merit reply**, sentence by sentence. -/
theorem meritReply_eq {phis : List Phikeia} (hphis : (phis.map Phikeia.groupmeId).Nodup)
    {diff : Int} (hdiff : Int32.ofInt diff = 1 ↔ diff = 1) (ms : List (Int64 × Utf16)) :
    meritReply diff ms phis = (List.range ms.length).flatMap (sentenceAt diff phis ms) := by
  induction ms using List.reverseRecOn with
  | nil => rfl
  | append_singleton ms m ih =>
      have hbefore : (List.range ms.length).flatMap (sentenceAt diff phis (ms ++ [m]))
          = (List.range ms.length).flatMap (sentenceAt diff phis ms) :=
        List.flatMap_congr fun i hi =>
          sentenceAt_append diff phis ms [m] (List.mem_range.mp hi)
      have hlast : meritSentence (Int32.ofInt diff) m.2
          (found m.1 (phis.map (Phikeia.markAll diff ms)))
          (total diff m.1 (phis.map (Phikeia.markAll diff ms)))
          = sentenceAfter diff phis (ms ++ [m]) m := by
        rw [found_markAll, found_eq]
        unfold sentenceAfter
        rcases hr : rowOf m.1 phis with _ | r
        · rfl
        · rw [total_markAll hphis diff ms m hr]
          simp only [Option.isSome_some, meritSentence, intText, hdiff, Bool.not_true,
            Bool.false_eq_true, if_false, List.append_assoc]
      rw [meritReply_snoc, ih, List.length_append, List.length_singleton, List.range_succ,
        List.flatMap_append, hbefore, hlast, List.flatMap_singleton, sentenceAt_last]

/-- The replies of a merit, in full. -/
theorem repliesLog_eq {phis rows : List Phikeia} (hphis : (phis.map Phikeia.groupmeId).Nodup)
    {text : Utf16} {g : GroupmeBindingModel} {o : Order}
    (hm : text.contains (utf16 "merit") = true) (hdiff : o.diff = diffOf text) :
    repliesLog text g o (meritReply o.diff o.marks phis) rows = toldLog text g o phis rows := by
  rw [meritReply_eq hphis (hdiff ▸ ofInt_diffOf text), repliesLog, if_pos hm]
  rfl

/-- The rows that were there come first, and are still the same people's. -/
theorem committed_take {t t' : Table Phikeia} {g : GroupmeBindingModel} {o : Order}
    {log : List Effect} (h : Committed t g o t' log) :
    t'.rows.take t.rows.length = t.rows.map (Phikeia.markAll o.diff o.marks) := by
  rw [h.rows, List.take_left' (by rw [List.length_map])]

/-- The last mention of somebody has counted all of them. -/
theorem occurrences_take {ms : List (Int64 × Utf16)} {i : Nat} {u : Int64}
    (h : u ∉ (ms.drop (i + 1)).map Prod.fst) :
    occurrences u (ms.take (i + 1)) = occurrences u ms := by
  have hall : ms.map Prod.fst
      = (ms.take (i + 1)).map Prod.fst ++ (ms.drop (i + 1)).map Prod.fst := by
    rw [← List.map_append, List.take_append_drop]
  have hnone := List.count_eq_zero.mpr h
  unfold occurrences
  rw [hall, List.count_append]
  omega

/-- **What a committed merit has told the group.** With one row per person, one sentence
per mention: of somebody unknown, or with the points before the message and one more
for each mention so far. The last of a person's totals is what is committed, and the
score of the same message lists the rows there were as they are committed. -/
theorem msg_totals (t : Table Phikeia) (g : GroupmeBindingModel) (text : Utf16)
    (fs : List Fault) (ht : (t.rows.map Phikeia.groupmeId).Nodup) (htext : g.text = some text)
    (hm : text.contains (utf16 "merit") = true)
    (hs : Effect.saved ∈ (handle t ⟨some g, fs⟩).2.log) :
    ∃ o tail, orderOf g = some o ∧ o.diff = diffOf text ∧ o.marks.map Prod.fst = mentionedIds g
      ∧ (handle t ⟨some g, fs⟩).2.log
          = toldLog text g o t.rows ((handle t ⟨some g, fs⟩).1.rows.take t.rows.length)
            ++ .saved :: tail
      ∧ (tail = [] ∨ text.contains (utf16 "Andre Re") = true
          ∧ tail = [.posted (utf16 "Andre you a bitch")])
      ∧ ((handle t ⟨some g, fs⟩).1.rows.take t.rows.length).map (fun r => (r.id, r.groupmeId))
          = t.rows.map (fun r => (r.id, r.groupmeId))
      ∧ ∀ i m r, o.marks[i]? = some m → m.1 ∉ (o.marks.drop (i + 1)).map Prod.fst →
          rowOf m.1 t.rows = some r → ∃ r' ∈ (handle t ⟨some g, fs⟩).1.rows, r'.id = r.id
            ∧ r'.points = r.points
                + Int32.ofInt (o.diff * occurrences m.1 (o.marks.take (i + 1))) := by
  obtain ⟨o, hc⟩ := committed_of_saved hs
  obtain ⟨text', tail, htext', hlog, htail⟩ := hc.log
  obtain rfl : text' = text := Option.some.inj (htext'.symm.trans htext)
  have hmarks := marks_of_orderOf htext hc.order
  rw [if_pos hm] at hmarks
  have hdiff := diff_of_orderOf htext hc.order
  refine ⟨o, tail, hc.order, hdiff, lastMentioned_fst hmarks, ?_, htail, ?_, ?_⟩
  · rw [hlog, committed_take hc, repliesLog_eq ht hm hdiff]
  · rw [committed_take hc, List.map_map]
    refine List.map_congr_left fun r _ => ?_
    exact Prod.ext (Phikeia.markAll_id _ _ r) (Phikeia.markAll_groupmeId _ _ r)
  · intro i m r _ hlast hr
    unfold rowOf at hr
    have hholder : r.groupmeId = m.1 := by simpa using List.find?_some hr
    obtain ⟨r', hr', hid, -, hpoints⟩ :=
      (kept_of_committed hc).points r (List.mem_of_find?_eq_some hr)
    refine ⟨r', hr', hid, ?_⟩
    rw [hpoints, hholder, occurrences_take hlast]

/-- `@A @A @B merit @bot score`: the same person twice, and somebody unknown. -/
def meritAAB : GroupmeBindingModel :=
  ⟨some [some ⟨some (utf16 "mentions"), some [some [0, 2], some [3, 2], some [6, 2]],
    some [1, 1, 2]⟩], some (utf16 "@A @A @B merit @bot score")⟩

/-- The table with `A` in it. -/
theorem msg_totals_AAB :
    ∃ o tail, orderOf meritAAB = some o ∧ o.marks.map Prod.fst = [1, 1, 2]
      ∧ (handle tableA ⟨some meritAAB, []⟩).2.log
        = toldLog (utf16 "@A @A @B merit @bot score") meritAAB o tableA.rows
            ((handle tableA ⟨some meritAAB, []⟩).1.rows.take tableA.rows.length)
          ++ .saved :: tail := by
  obtain ⟨o, tail, ho, -, hids, hlog, -⟩ := msg_totals tableA meritAAB
    (utf16 "@A @A @B merit @bot score") [] (by decide +kernel) rfl (by decide +kernel)
    (by decide +kernel)
  exact ⟨o, tail, ho, hids, hlog⟩

end TacPac.Groupme
