import Pathway.Engine.Table
import Pathway.Operators.Forget

/-! `remove_retractions_from_table`, `assert_append_only`, and the preparation of the two
input streams of `merge_streams_to_table`, over the history of a table (`Forget.Timed`): its
updates with their times. `values_consolidated` and `consolidate` leave one update per
record and time, with the sum of its diffs; `prepare_insertions_or_deletions` reads the
updates as they come. `extract_columns` gives a row's values in the asserted columns and
stops the worker when a path fails. -/
namespace Pathway
namespace AppendOnly
open ZSet Forget

section
variable {α : Type} [DecidableEq α]

/-- `remove_retractions_from_table`: the consolidated updates with a positive diff. -/
def removeRetractionsFromTable (z : Timed α) : Timed α :=
  List.filter (fun u => 0 < u.2) (consolidate z)

theorem count_atTime (z : Timed α) (τ : ℕ) (a : α) : count (atTime z τ) a = count z (a, τ) := by
  induction z with
  | nil => rfl
  | cons u z ih =>
    obtain ⟨⟨x, t⟩, d⟩ := u
    simp [count_atTime_cons, ih, and_comm]

theorem count_accumulatedAt_zero (z : Timed α) (a : α) :
    count (accumulatedAt z 0) a = count z (a, 0) := by
  induction z with
  | nil => rfl
  | cons u z ih =>
    obtain ⟨⟨x, t⟩, d⟩ := u
    simp [count_accumulatedAt_cons, ih, and_comm]

theorem count_accumulatedAt_succ (z : Timed α) (τ : ℕ) (a : α) :
    count (accumulatedAt z (τ + 1)) a = count (accumulatedAt z τ) a + count z (a, τ + 1) := by
  induction z with
  | nil => rfl
  | cons u z ih =>
    obtain ⟨⟨x, t⟩, d⟩ := u
    rw [count_accumulatedAt_cons, count_accumulatedAt_cons, ih, count_cons]
    by_cases hx : x = a
    · subst hx
      simp only [and_true, true_and, Prod.mk.injEq]
      split_ifs <;> omega
    · simp [hx]

/-- Content only depends on the counts: consolidating a history keeps it. -/
theorem count_accumulatedAt_consolidate (z : Timed α) (τ : ℕ) (a : α) :
    count (accumulatedAt (consolidate z) τ) a = count (accumulatedAt z τ) a :=
  ZSet.Equiv.map (fun b => by rw [count_filter, count_filter, count_consolidate]) Prod.fst a

/-- Dropping the updates of non-positive diff never lowers what a history holds. -/
theorem count_accumulatedAt_le_filter_pos (z : Timed α) (τ : ℕ) (a : α) :
    count (accumulatedAt z τ) a ≤ count (accumulatedAt (List.filter (fun u => 0 < u.2) z) τ) a := by
  induction z with
  | nil => exact le_rfl
  | cons u z ih =>
    obtain ⟨⟨x, t⟩, d⟩ := u
    by_cases hd : 0 < d
    · rw [List.filter_cons_of_pos (by simpa using hd), count_accumulatedAt_cons,
        count_accumulatedAt_cons]
      omega
    · rw [List.filter_cons_of_neg (by simpa using hd), count_accumulatedAt_cons]
      split_ifs <;> omega

/-- A history of non-negative diffs holds more at later times. -/
theorem count_accumulatedAt_mono {z : Timed α} (hz : ∀ u ∈ z, 0 ≤ u.2) (a : α) :
    Monotone fun τ => count (accumulatedAt z τ) a := fun τ τ' h => by
  induction z with
  | nil => exact le_rfl
  | cons u z ih =>
    obtain ⟨⟨x, t⟩, d⟩ := u
    have hd : 0 ≤ d := hz _ (List.mem_cons_self _ _)
    have := ih fun v hv => hz v (List.mem_cons_of_mem _ hv)
    dsimp only at this ⊢
    simp only [count_accumulatedAt_cons]
    by_cases hx : x = a
    · simp only [hx, and_true]
      split_ifs <;> omega
    · simp [hx, this]

omit [DecidableEq α] in
/-- Keeping the positive updates of a collection with one update per record keeps the
positive part of each count. -/
theorem count_filter_pos {z : ZSet α} [DecidableEq α] (hz : (List.map Prod.fst z).Nodup) (a : α) :
    count (List.filter (fun u => 0 < u.2) z) a = max 0 (count z a) := by
  induction z with
  | nil => rfl
  | cons u z ih =>
    obtain ⟨b, d⟩ := u
    rw [List.map_cons, List.nodup_cons] at hz
    have hb : b = a → count z a = 0 := fun h => count_eq_zero_of_not_mem (h ▸ hz.1)
    by_cases hd : 0 < d
    · rw [List.filter_cons_of_pos (by simpa using hd), count_cons, count_cons, ih hz.2]
      split_ifs with h
      · rw [hb h]; omega
      · omega
    · rw [List.filter_cons_of_neg (by simpa using hd), count_cons, ih hz.2]
      split_ifs with h
      · rw [hb h]; omega
      · omega

theorem nodup_map_fst_consolidate (z : ZSet α) : (List.map Prod.fst (consolidate z)).Nodup := by
  simpa [consolidate, List.map_map, Function.comp_def] using nodup_support z

theorem mem_removeRetractionsFromTable {z : Timed α} {u : (α × ℕ) × ℤ} :
    u ∈ removeRetractionsFromTable z ↔ 0 < count z u.1 ∧ u.2 = count z u.1 := by
  obtain ⟨x, d⟩ := u
  simp only [removeRetractionsFromTable, consolidate, List.mem_filter, List.mem_map, mem_support,
    Prod.mk.injEq, decide_eq_true_eq]
  constructor
  · rintro ⟨⟨_, -, rfl, rfl⟩, hd⟩
    exact ⟨hd, rfl⟩
  · rintro ⟨hd, rfl⟩
    exact ⟨⟨x, hd.ne', rfl, rfl⟩, hd⟩

/-- `remove_retractions_from_table` keeps, at every time, the positive part of each row's net
update there: an insertion stays, a retraction is dropped, and the updates of one time
cancel first. -/
theorem count_atTime_removeRetractions (z : Timed α) (τ : ℕ) (a : α) :
    count (atTime (removeRetractionsFromTable z) τ) a = max 0 (count (atTime z τ) a) := by
  rw [count_atTime, count_atTime, removeRetractionsFromTable,
    count_filter_pos (nodup_map_fst_consolidate z), count_consolidate]

/-- The content of `remove_retractions_from_table`'s output never shrinks over time, and
holds every row at least as often as the input does. -/
theorem remove_retractions_content_grows (z : Timed α) (a : α) :
    Monotone (fun τ => count (accumulatedAt (removeRetractionsFromTable z) τ) a) ∧
      ∀ τ, count (accumulatedAt z τ) a ≤
        count (accumulatedAt (removeRetractionsFromTable z) τ) a :=
  ⟨count_accumulatedAt_mono (fun _ hu => (mem_removeRetractionsFromTable.1 hu).2 ▸
      (mem_removeRetractionsFromTable.1 hu).1.le) a,
    fun τ => count_accumulatedAt_consolidate z τ a ▸ count_accumulatedAt_le_filter_pos _ τ a⟩

/-- In a history that is a set at every time, a record with a positive net update at a time
is inserted there once, and present. -/
theorem inserted_once {z : Timed α} (hz : ∀ τ, IsSet (accumulatedAt z τ)) {a : α} {τ : ℕ}
    (h : 0 < count z (a, τ)) : count z (a, τ) = 1 ∧ count (accumulatedAt z τ) a = 1 := by
  obtain ⟨p, hp, he⟩ : ∃ p, (p = 0 ∨ p = 1) ∧ count (accumulatedAt z τ) a = p + count z (a, τ) := by
    cases τ with
    | zero => exact ⟨0, .inl rfl, by rw [count_accumulatedAt_zero, zero_add]⟩
    | succ τ => exact ⟨_, hz τ a, count_accumulatedAt_succ z τ a⟩
  rcases hz τ a with h' | h' <;> omega

end

/-- A history that is a table at every time. -/
def IsTableHistory (z : Timed Row) : Prop := ∀ τ, IsTable (accumulatedAt z τ)

/-- `prepare_insertions_or_deletions` of `merge_streams_to_table`: each insertion of a stream
with the diff `new_diff_value`; any other update is dropped and `ExpectedAppendOnly` of its
key logged. -/
def prepareInsertionsOrDeletions (newDiffValue : ℤ) : Timed Row → Timed Row × List DataError
  | [] => ([], [])
  | ((r, t), d) :: z =>
    let rest := prepareInsertionsOrDeletions newDiffValue z
    if d = 1 then (((r, t), newDiffValue) :: rest.1, rest.2)
    else (rest.1, .expectedAppendOnly r.1 :: rest.2)

/-- On a table's history, every update `remove_retractions_from_table` keeps is a single
insertion. -/
theorem removeRetractions_diff_eq_one {z : Timed Row} (hz : IsTableHistory z)
    {u : (Row × ℕ) × ℤ} (hu : u ∈ removeRetractionsFromTable z) : u.2 = 1 := by
  obtain ⟨hpos, he⟩ := mem_removeRetractionsFromTable.1 hu
  rw [he]
  exact (inserted_once (fun τ => (hz τ).isSet) hpos).1

/-- Key `1` holds `5` from time 0, and `6` from time 2. -/
def updatedRow : Timed Row :=
  [(((1, .int 5), 0), 1), (((1, .int 5), 2), -1), (((1, .int 6), 2), 1)]

theorem isTableHistory_updatedRow : IsTableHistory updatedRow := fun τ => by
  by_cases h : 2 ≤ τ
  · refine (isTable_ofList (S := [((1 : Key), Value.int 6)]) (by decide)).of_equiv fun a => ?_
    by_cases ha : ((1 : Key), Value.int 5) = a <;>
      simp [accumulatedAt, updatedRow, ZSet.filter, ZSet.map, List.filter_cons, h, ha,
        List.count_cons, instBEqOfDecidableEq]
  · refine (isTable_ofList (S := [((1 : Key), Value.int 5)]) (by decide)).of_equiv fun a => ?_
    simp [accumulatedAt, updatedRow, ZSet.filter, ZSet.map, List.filter_cons, h, List.count_cons,
      instBEqOfDecidableEq]

/-- `prepare_insertions_or_deletions` keeps the insertions of a stream of insertions, with
their new diff, and logs nothing. -/
theorem prepareInsertionsOrDeletions_of_insertions (newDiffValue : ℤ) :
    ∀ z : Timed Row, (∀ u ∈ z, u.2 = 1) →
      prepareInsertionsOrDeletions newDiffValue z = (List.map (fun u => (u.1, newDiffValue)) z, [])
  | [], _ => rfl
  | ((r, t), d) :: z, h => by
    have hd : d = 1 := h _ (List.mem_cons_self _ _)
    simp only [prepareInsertionsOrDeletions, hd, if_true, List.map_cons,
      prepareInsertionsOrDeletions_of_insertions newDiffValue z fun u hu =>
        h u (List.mem_cons_of_mem _ hu)]

/-- A table's history with its retractions removed is a stream that `merge_streams_to_table`
takes as it is: every update is an insertion, so none is dropped and nothing is logged. -/
theorem merge_streams_accepts_removed_retractions {z : Timed Row} (hz : IsTableHistory z)
    (newDiffValue : ℤ) :
    prepareInsertionsOrDeletions newDiffValue (removeRetractionsFromTable z) =
      (List.map (fun u => (u.1, newDiffValue)) (removeRetractionsFromTable z), []) :=
  prepareInsertionsOrDeletions_of_insertions newDiffValue _ fun _ hu =>
    removeRetractions_diff_eq_one hz hu

theorem merge_streams_accepts_updated_row :
    IsTableHistory updatedRow ∧
      prepareInsertionsOrDeletions (-1) (removeRetractionsFromTable updatedRow) =
        (List.map (fun u => (u.1, -1)) (removeRetractionsFromTable updatedRow), []) :=
  ⟨isTableHistory_updatedRow, merge_streams_accepts_removed_retractions isTableHistory_updatedRow (-1)⟩

end AppendOnly
end Pathway
