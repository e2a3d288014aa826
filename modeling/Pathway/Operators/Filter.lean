import Pathway.Operators.Ix

/-! The operators that keep or re-key the rows of a table one by one, at one time:
`filter_table`, `reindex_table` and `remove_value_from_table`, and the filters
`filter_out_errors` and `filter_out_pending` of the output connectors. Their closures run on
every update, so a closure that logs does so once per update. -/
namespace Pathway
namespace Filter
open ZSet

/-- `filter_table`'s closure on a row: the row, if its filtering value is `true`.
`Value::Error` counts as `false`, logging `ErrorInFilter` (`into_result`,
`unwrap_or_log_with_trace`); a value that is not a `bool` stops the worker
(`as_bool().unwrap_with_reporter_and_trace`). -/
def filterRow (path : ColumnPath) (r : Row) : Except Error (Option Row × List DataError) := do
  let value ← path.extract r.1 r.2
  let (value, log) : Value × List DataError :=
    if value = .error then (.bool false, [.errorInFilter]) else (value, [])
  match value.asBool with
  | some keep => pure (if keep then some r else none, log)
  | none => throw (.reported "as_bool")

/-- `filter_table`. -/
def filterTable (path : ColumnPath) : ZSet Row → Except Error (ZSet Row × List DataError) :=
  flatMapLog (filterRow path)

/-- `remove_value_from_table`: of `extract_columns`, the rows whose values do not hold
`value`, the values made a tuple. -/
def removeValueFromTable (paths : List ColumnPath) (value : Value) (z : ZSet Row) :
    Except Error (ZSet Row) := do
  let extracted ← mapE (fun r => (r.1, ·) <$> ColumnPath.extractAll paths r.1 r.2) z
  pure (ZSet.map (fun r => (r.1, .tuple r.2)) (ZSet.filter (fun r => !r.2.contains value) extracted))

/-- `filter_out_errors`: the rows with no `Value::Error` among their values; with a logger,
each other update logs `ErrorInOutput`. -/
def filterOutErrors (logging : Bool) (z : ZSet (Key × List Value)) :
    ZSet (Key × List Value) × List DataError :=
  (ZSet.filter (fun r => !r.2.contains .error) z,
    if logging then List.flatMap z fun u => if u.1.2.contains .error then [.errorInOutput] else []
    else [])

/-- `filter_out_pending`: the rows with no `Value::Pending` among their values. -/
def filterOutPending (z : ZSet (Key × List Value)) : ZSet (Key × List Value) :=
  ZSet.filter (fun r => !r.2.contains .pending) z

/-- Keeping the rows that satisfy `p`, as a `flat_map`. -/
theorem flatMap_keep (p : Row → Prop) [DecidablePred p] (z : ZSet Row) :
    flatMap (fun r => (if p r then some r else none).toList) z = ZSet.filter (fun r => p r) z := by
  induction z with
  | nil => rfl
  | cons u z ih =>
    simp only [flatMap, ZSet.filter] at ih ⊢
    by_cases h : p u.1 <;> simp [h, ih, List.filter_cons]

section
variable {path : ColumnPath} {F : Row → Value} (hF : ∀ r, path.extract r.1 r.2 = .ok (F r))
include hF

/-- A row whose filtering value is a `bool` or `Value::Error`: kept when it is `true`, and
logged when it is `Value::Error`. -/
theorem filterRow_eq {r : Row} (hr : F r = .error ∨ ∃ b, F r = .bool b) :
    filterRow path r = .ok (if F r = .bool true then some r else none,
      if F r = .error then [.errorInFilter] else []) := by
  rcases hr with h | ⟨b, h⟩
  · simp [filterRow, hF, h]
  · cases b <;> simp [filterRow, hF, h]

/-- On a table whose filtering values are `bool`s or `Value::Error`, `filter_table` gives the
table of the rows whose value is `true`, and logs `ErrorInFilter` once for each update of a
row whose value is `Value::Error`. -/
theorem filterTable_hasRows {z : ZSet Row} {T : Key → Option Value} (hz : HasRows z T)
    (hval : ∀ u ∈ z, F u.1 = .error ∨ ∃ b, F u.1 = .bool b) :
    ∃ out, filterTable path z =
        .ok (out, List.flatMap z fun u => if F u.1 = .error then [.errorInFilter] else []) ∧
      HasRows out fun k => (T k).filter fun v => F (k, v) = .bool true := by
  refine ⟨_, flatMapLog_eq_ok (fun r => if F r = .bool true then some r else none)
    (fun r => if F r = .error then [.errorInFilter] else []) z
    fun u hu => filterRow_eq hF (hval u hu), ?_⟩
  rw [flatMap_keep]
  exact hz.filter _

/-- `filter_table` stops the worker on a row whose filtering value is neither a `bool` nor
`Value::Error`. -/
theorem filterTable_error_of_non_bool {z : ZSet Row}
    (h : ∃ u ∈ z, F u.1 ≠ .error ∧ (F u.1).asBool = none) : ∃ e, filterTable path z = .error e := by
  obtain ⟨u, hu, herr, hb⟩ := h
  exact flatMapLog_exists_error ⟨u, hu, .reported "as_bool", by simp [filterRow, hF, herr, hb]⟩

end

section
variable {path : ColumnPath} {F : Row → Value} (hF : ∀ r, path.extract r.1 r.2 = .ok (F r))
include hF

end

/-- `remove_value_from_table` of a table is a table: the row of a key is the tuple of its
row's values in the columns, unless they hold the value. -/
theorem removeValueFromTable_hasRows (paths : List ColumnPath) (value : Value)
    (E : Key → Value → List Value) (hE : ∀ k v, ColumnPath.extractAll paths k v = .ok (E k v))
    {z : ZSet Row} {T : Key → Option Value} (hz : HasRows z T) :
    ∃ out, removeValueFromTable paths value z = .ok out ∧
      HasRows out fun k =>
        ((T k).filter fun v => !(E k v).contains value).map fun v => .tuple (E k v) := by
  have hext : mapE (fun r => (r.1, ·) <$> ColumnPath.extractAll paths r.1 r.2) z =
      .ok (ZSet.map (fun r => (r.1, E r.1 r.2)) z) :=
    mapE_eq_ok _ z fun u _ => by simp [hE]
  refine ⟨_, by rw [removeValueFromTable, hext, ok_bind]; rfl, ?_⟩
  have hrows := ((hz.map fun k v => E k v).filter fun r => !r.2.contains value).map
    fun _ vs => Value.tuple vs
  refine ⟨hrows.isTable, fun k => (hrows.lookup_eq k).trans ?_⟩
  cases T k <;> simp [Option.filter]
  split_ifs <;> rfl

end Filter
end Pathway
