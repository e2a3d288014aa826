import Pathway.Operators.Join

/-! `flatten_table`: each row becomes one row per entry of the value at the flatten path,
the elements of a tuple, the characters of a string, the elements of a JSON array, or the
elements (one dimension) or the sub-arrays along axis 0 (more dimensions) of an int or float
array; any other value logs a `ValueError` and gives no row. How the error messages show a
value and the key hashes are not in the source and are parameters; `Value::from` of a JSON
value is its `Value::Json`. -/
namespace Pathway
namespace Flatten
open ZSet

/-- How the error messages show a value: `Display` of a `serde_json::Value`, `Debug` of a
`Value`. -/
structure Formats where
  json : Json → String
  value : Value → String

/-- `n` consecutive pieces of `m` elements of a row-major list. -/
def pieces {α : Type} (m : ℕ) : ℕ → List α → List (List α)
  | 0, _ => []
  | n + 1, xs => xs.take m :: pieces m n (xs.drop m)

section
variable {α : Type} (m : ℕ)

@[simp] theorem length_pieces : ∀ (n : ℕ) (xs : List α), (pieces m n xs).length = n
  | 0, _ => rfl
  | n + 1, xs => by simp [pieces, length_pieces n]

theorem length_of_mem_pieces : ∀ {n : ℕ} {xs : List α}, n * m ≤ xs.length →
    ∀ p ∈ pieces m n xs, p.length = m
  | 0, _, _, _, hp => nomatch hp
  | n + 1, xs, h, p, hp => by
    rw [Nat.succ_mul] at h
    rcases List.mem_cons.1 hp with rfl | hp
    · simp only [List.length_take]
      omega
    · exact length_of_mem_pieces (by simp only [List.length_drop]; omega) p hp

theorem flatten_pieces : ∀ {n : ℕ} {xs : List α}, xs.length = n * m →
    (pieces m n xs).flatten = xs
  | 0, xs, h => by simpa [pieces, eq_comm] using h
  | n + 1, xs, h => by
    rw [Nat.succ_mul] at h
    rw [pieces, List.flatten_cons, flatten_pieces (by simp only [List.length_drop]; omega),
      List.take_append_drop]

end

/-- Dropping axis 0 keeps an array's size within `isize::MAX`. -/
theorem NdArray.size_lt_tail {n : ℕ} {tail : List ℕ}
    (h : ((n :: tail).filter (· ≠ 0)).prod < 2 ^ 63) : (tail.filter (· ≠ 0)).prod < 2 ^ 63 := by
  rw [List.filter_cons] at h
  split_ifs at h with hn
  · rw [List.prod_cons] at h
    exact lt_of_le_of_lt (Nat.le_mul_of_pos_left _ (Nat.pos_of_ne_zero (by simpa using hn))) h
  · exact h

/-- `ArrayBase::outer_iter` of a dynamic-dimensional array: its sub-arrays along axis 0, in
order. An array of no dimension has no axis 0: `len_of(Axis(0))` indexes its empty shape
and panics. -/
def outerIter {α : Type} (a : NdArray α) : Except Error (List (NdArray α)) :=
  match hs : a.shape with
  | [] => throw (.assertion "index out of bounds: the len is 0 but the index is 0")
  | n :: tail =>
    have hlen : n * tail.prod ≤ a.elems.length := by rw [a.elems_length, hs, List.prod_cons]
    pure ((pieces tail.prod n a.elems).pmap
      (fun xs hxs => ⟨tail, xs, hxs, NdArray.size_lt_tail (hs ▸ a.size_lt)⟩)
      (length_of_mem_pieces _ hlen))

/-- `flatten_ndarray`: the elements of a one-dimensional array, else its sub-arrays along
axis 0. -/
def flattenNdarray {α : Type} (ofElem : α → Value) (ofArray : NdArray α → Value)
    (a : NdArray α) : Except Error (List Value) :=
  if a.shape.length = 1 then pure (a.elems.map ofElem)
  else (fun subs => subs.map ofArray) <$> outerIter a

/-- The `match value` of the closure: the entries of a value that can be flattened, or the
`ValueError` to log. -/
def flattenEntries (fmt : Formats) : Value → Except Error (Except DataError (List Value))
  | .intArray a => Except.ok <$> flattenNdarray .int .intArray a
  | .floatArray a => Except.ok <$> flattenNdarray .float .floatArray a
  | .tuple vs => pure (.ok vs)
  | .string s => pure (.ok (s.data.map fun c => .string (String.singleton c)))
  | .json j => pure (match j with
    | .array xs => .ok (xs.map .json)
    | j => .error (.valueError ("Pathway can\x27t flatten this Json: " ++ fmt.json j)))
  | v => pure (.error (.valueError ("Pathway can\x27t flatten this value " ++ fmt.value v)))

/-- `unwrap_or_log(error_logger, vec![])`: the entries, or none and the logged error. -/
def unwrapOrLog : Except DataError (List Value) → List Value × List DataError
  | .ok entries => (entries, [])
  | .error e => ([], [e])

/-- The new rows of a row: the `i`-th entry keyed `Key::for_values([key, i])
.with_shard_of(key)`, with the tuple of the row's values and the entry. An index into an
in-memory sequence is below `isize::MAX`, so `i64::try_from(i).unwrap()` does not fail. -/
def entryRows (h : Join.KeyHash) (key : Key) (values : Value) (entries : List Value) :
    List (Key × Value) :=
  entries.enum.map fun (i, entry) =>
    (h.withShardOf (h.forValues [.pointer key, .int i]) key, .tuple [values, entry])

/-- The closure of `flat_map` in `flatten_table`, on one row: its new rows and what it
logged. -/
def flattenRow (h : Join.KeyHash) (fmt : Formats) (path : ColumnPath) (key : Key)
    (values : Value) : Except Error (List (Key × Value) × List DataError) := do
  let value ← path.extract key values
  let wrapped ← flattenEntries fmt value
  let (entries, log) := unwrapOrLog wrapped
  pure (entryRows h key values entries, log)

/-- `flatten_table` over the updates of a table: each update's new rows, with its diff. -/
def flattenTable (h : Join.KeyHash) (fmt : Formats) (path : ColumnPath) :
    ZSet (Key × Value) → Except Error (ZSet (Key × Value) × List DataError)
  | [] => pure ([], [])
  | ((key, values), d) :: z => do
    let (rows, log) ← flattenRow h fmt path key values
    let (rest, logs) ← flattenTable h fmt path z
    pure (rows.map (·, d) ++ rest, log ++ logs)

theorem outerIter_of_shape_nil {α : Type} {a : NdArray α} (hs : a.shape = []) :
    outerIter a = .error (.assertion "index out of bounds: the len is 0 but the index is 0") := by
  unfold outerIter
  split
  · rfl
  · simp_all

/-- The sub-arrays along axis 0: as many as its length, each of the remaining shape, and
stacked they give back the array's elements. -/
theorem outerIter_of_shape_cons {α : Type} {a : NdArray α} {n : ℕ} {tail : List ℕ}
    (hs : a.shape = n :: tail) :
    ∃ subs, outerIter a = .ok subs ∧ subs.length = n ∧ (∀ b ∈ subs, b.shape = tail) ∧
      (subs.map NdArray.elems).flatten = a.elems := by
  unfold outerIter
  split
  next h => simp_all
  next n' tail' h =>
    obtain ⟨rfl, rfl⟩ := List.cons.inj (h.symm.trans hs)
    refine ⟨_, rfl, by simp, fun b hb => ?_, ?_⟩
    · obtain ⟨xs, hxs, rfl⟩ := List.mem_pmap.1 hb
      rfl
    · rw [List.map_pmap, List.pmap_eq_map, List.map_id']
      exact flatten_pieces _ (by rw [a.elems_length, h, List.prod_cons])

theorem join_map_singleton_foldl : ∀ (cs : List Char) (acc : String),
    (cs.map String.singleton).foldl (· ++ ·) acc = acc ++ ⟨cs⟩
  | [], acc => by cases acc; simp [String.append]
  | c :: cs, acc => by
    rw [List.map_cons, List.foldl_cons, join_map_singleton_foldl cs]
    exact congrArg String.mk (List.append_assoc acc.data [c] cs)

/-- A string's one-character strings join back to it. -/
theorem join_map_singleton (s : String) : String.join (s.data.map String.singleton) = s := by
  rw [String.join, join_map_singleton_foldl]
  exact String.ext (List.nil_append s.data)

@[simp] theorem length_entryRows (h : Join.KeyHash) (key : Key) (values : Value)
    (entries : List Value) : (entryRows h key values entries).length = entries.length := by
  simp [entryRows]

theorem getElem?_entryRows (h : Join.KeyHash) (key : Key) (values : Value)
    (entries : List Value) (i : ℕ) : (entryRows h key values entries)[i]? =
      entries[i]?.map fun e => (h.withShardOf (h.forValues [.pointer key, .int i]) key,
        .tuple [values, e]) := by
  simp [entryRows, List.getElem?_enum, Option.map_map, Function.comp_def]

theorem flattenRow_eq (h : Join.KeyHash) (fmt : Formats) {path : ColumnPath} {key : Key}
    {values v : Value} (hv : path.extract key values = .ok v) {r : Except DataError (List Value)}
    (hr : flattenEntries fmt v = .ok r) : flattenRow h fmt path key values =
      .ok (entryRows h key values (unwrapOrLog r).1, (unwrapOrLog r).2) := by
  simp only [flattenRow, hv, hr, ok_bind]
  rfl

/-- The entries of an array: the elements of a one-dimensional array, or the sub-arrays along
axis 0 of one of more dimensions, which stacked give the array back. -/
inductive ArrayEntries {α : Type} (ofElem : α → Value) (ofArray : NdArray α → Value)
    (a : NdArray α) : List Value → Prop
  | elements (n : ℕ) (hshape : a.shape = [n]) : ArrayEntries ofElem ofArray a (a.elems.map ofElem)
  | rows (n : ℕ) (tail : List ℕ) (subs : List (NdArray α)) (hshape : a.shape = n :: tail)
      (htail : tail ≠ []) (hlen : subs.length = n) (hsub : ∀ b ∈ subs, b.shape = tail)
      (hjoin : (subs.map NdArray.elems).flatten = a.elems) :
      ArrayEntries ofElem ofArray a (subs.map ofArray)

/-- The entries of a value that can be flattened. -/
inductive Flattens : Value → List Value → Prop
  | tuple (vs : List Value) : Flattens (.tuple vs) vs
  | string (s : String) (parts : List String) (hlen : ∀ p ∈ parts, p.length = 1)
      (hjoin : String.join parts = s) : Flattens (.string s) (parts.map .string)
  | json (xs : List Json) : Flattens (.json (.array xs)) (xs.map .json)
  | intArray (a : NdArray ℤ) (entries : List Value) (h : ArrayEntries .int .intArray a entries) :
      Flattens (.intArray a) entries
  | floatArray (a : NdArray F64) (entries : List Value)
      (h : ArrayEntries .float .floatArray a entries) : Flattens (.floatArray a) entries

/-- An int or float array of no dimension. -/
def zeroDimensional : Value → Bool
  | .intArray a => a.shape.isEmpty
  | .floatArray a => a.shape.isEmpty
  | _ => false

/-- The empty values: the empty tuple, string and JSON array, and an array whose axis 0 has
length zero. -/
def IsEmptyTarget : Value → Prop
  | .tuple vs => vs = []
  | .string s => s = ""
  | .json j => j = .array []
  | .intArray a => a.shape.head? = some 0
  | .floatArray a => a.shape.head? = some 0
  | _ => False

section
variable {α : Type} (ofElem : α → Value) (ofArray : NdArray α → Value)

theorem flattenNdarray_entries {a : NdArray α} (h : a.shape ≠ []) :
    ∃ entries, flattenNdarray ofElem ofArray a = .ok entries ∧
      ArrayEntries ofElem ofArray a entries := by
  unfold flattenNdarray
  match hs : a.shape with
  | [] => exact absurd hs h
  | [n] => exact ⟨_, if_pos (by simp [hs]), .elements n hs⟩
  | n :: m :: tail =>
    obtain ⟨subs, ho, hlen, hsub, hjoin⟩ := outerIter_of_shape_cons hs
    rw [if_neg (by simp [hs]), ho]
    exact ⟨_, rfl, .rows n (m :: tail) subs hs (List.cons_ne_nil _ _) hlen hsub hjoin⟩

/-- An array whose axis 0 has length zero has no entries. -/
theorem flattenNdarray_of_head_zero {a : NdArray α} (h : a.shape.head? = some 0) :
    flattenNdarray ofElem ofArray a = .ok [] := by
  obtain ⟨tail, hs⟩ : ∃ tail, a.shape = 0 :: tail := by
    cases hs : a.shape <;> simp_all
  obtain ⟨subs, ho, hlen, -⟩ := outerIter_of_shape_cons hs
  have hnil : a.elems = [] := List.eq_nil_of_length_eq_zero (by simp [a.elems_length, hs])
  unfold flattenNdarray
  split
  · simp [hnil]
  · simp [ho, List.eq_nil_of_length_eq_zero hlen]

end

/-- What the `match value` gives a value that is not an array of no dimension: its entries,
or, for a value that cannot be flattened, a `ValueError`. -/
theorem flattenEntries_spec (fmt : Formats) (v : Value) (h0 : zeroDimensional v = false) :
    ∃ r, flattenEntries fmt v = .ok r ∧ ((∃ entries, r = .ok entries ∧ Flattens v entries) ∨
      ((∀ entries, ¬ Flattens v entries) ∧ ∃ msg, r = .error (.valueError msg))) := by
  cases v
  case tuple vs => exact ⟨_, rfl, .inl ⟨vs, rfl, .tuple vs⟩⟩
  case string s =>
    refine ⟨_, rfl, .inl ⟨_, ?_, .string s _ (by simp) (join_map_singleton s)⟩⟩
    rw [List.map_map]
    rfl
  case json j =>
    cases j
    case array xs => exact ⟨_, rfl, .inl ⟨_, rfl, .json xs⟩⟩
    all_goals exact ⟨_, rfl, .inr ⟨by rintro _ ⟨⟩, _, rfl⟩⟩
  case intArray a =>
    obtain ⟨es, he, ha⟩ := flattenNdarray_entries .int .intArray (a := a)
      (by simpa [zeroDimensional] using h0)
    exact ⟨_, by simp [flattenEntries, he], .inl ⟨es, rfl, .intArray a es ha⟩⟩
  case floatArray a =>
    obtain ⟨es, he, ha⟩ := flattenNdarray_entries .float .floatArray (a := a)
      (by simpa [zeroDimensional] using h0)
    exact ⟨_, by simp [flattenEntries, he], .inl ⟨es, rfl, .floatArray a es ha⟩⟩
  all_goals exact ⟨_, rfl, .inr ⟨by rintro _ ⟨⟩, _, rfl⟩⟩

theorem flattenEntries_of_isEmptyTarget (fmt : Formats) {v : Value} (h : IsEmptyTarget v) :
    flattenEntries fmt v = .ok (.ok []) := by
  cases v <;> simp only [IsEmptyTarget] at h
  case tuple => rw [h]; rfl
  case string => rw [h]; rfl
  case json => rw [h]; rfl
  case intArray a => simp [flattenEntries, flattenNdarray_of_head_zero _ _ h]
  case floatArray a => simp [flattenEntries, flattenNdarray_of_head_zero _ _ h]

theorem flattenEntries_of_zeroDimensional (fmt : Formats) {v : Value}
    (h0 : zeroDimensional v = true) :
    flattenEntries fmt v = .error (.assertion "index out of bounds: the len is 0 but the index is 0") := by
  cases v <;> simp only [zeroDimensional, List.isEmpty_iff, Bool.false_eq_true] at h0
  all_goals simp [flattenEntries, flattenNdarray, h0, outerIter_of_shape_nil h0]

/-- Over the updates of a table, each update's rows from the closure with its diff, and the
logs in order. -/
theorem flattenTable_eq (h : Join.KeyHash) (fmt : Formats) (path : ColumnPath)
    (out : Key → Value → List (Key × Value) × List DataError) :
    ∀ z : ZSet (Key × Value), (∀ u ∈ z, flattenRow h fmt path u.1.1 u.1.2 = .ok (out u.1.1 u.1.2)) →
      flattenTable h fmt path z =
        .ok (ZSet.flatMap (fun r => (out r.1 r.2).1) z,
          List.flatMap z fun u => (out u.1.1 u.1.2).2)
  | [], _ => rfl
  | ((key, values), d) :: z, hz => by
    simp only [flattenTable, hz _ (List.mem_cons_self _ _), ok_bind,
      flattenTable_eq h fmt path out z fun u hu => hz u (List.mem_cons_of_mem _ hu)]
    rfl

/-- The closure of `flatten_table` on a row whose value at the flatten path is `v`: an int or
float array of no dimension panics in `outer_iter`; any other value returns, with one row per
entry, the `i`-th keyed `Key::for_values([key, i]).with_shard_of(key)` with the tuple of the
row's values and the entry, where the entries put back together give `v`; or, when `v` cannot
be flattened, with no row and one logged `ValueError`. An empty tuple, string or JSON array,
or an array whose axis 0 has length zero, gives no row and no error. -/
theorem flatten_row_loses_nothing (h : Join.KeyHash) (fmt : Formats) (path : ColumnPath)
    (key : Key) (values v : Value) (hv : path.extract key values = .ok v) :
    (zeroDimensional v = true → flattenRow h fmt path key values =
      .error (.assertion "index out of bounds: the len is 0 but the index is 0")) ∧
    (zeroDimensional v = false → ∃ rows log, flattenRow h fmt path key values = .ok (rows, log) ∧
      ((∃ entries, Flattens v entries ∧ log = [] ∧ rows.length = entries.length ∧
          ∀ (i : ℕ) e, entries[i]? = some e → rows[i]? =
            some (h.withShardOf (h.forValues [.pointer key, .int i]) key, .tuple [values, e])) ∨
        ((∀ entries, ¬ Flattens v entries) ∧ rows = [] ∧ ∃ msg, log = [.valueError msg]))) ∧
    (IsEmptyTarget v → flattenRow h fmt path key values = .ok ([], [])) := by
  refine ⟨fun h0 => ?_, fun h0 => ?_, fun he => ?_⟩
  · simp [flattenRow, hv, flattenEntries_of_zeroDimensional fmt h0]
  · obtain ⟨r, hr, ⟨es, rfl, hf⟩ | ⟨hn, msg, rfl⟩⟩ := flattenEntries_spec fmt v h0
    · refine ⟨_, _, flattenRow_eq h fmt hv hr,
        .inl ⟨es, hf, rfl, length_entryRows .., fun i e he => ?_⟩⟩
      simp [getElem?_entryRows, unwrapOrLog, he]
    · exact ⟨_, _, flattenRow_eq h fmt hv hr, .inr ⟨hn, rfl, msg, rfl⟩⟩
  · rw [flattenRow_eq h fmt hv (flattenEntries_of_isEmptyTarget fmt he)]
    rfl

/-- Blank error messages. -/
def blankFormats : Formats := ⟨fun _ => "", fun _ => ""⟩

theorem flatten_row_loses_nothing_string :
    ColumnPath.whole.extract 1 (.string "ab") = .ok (.string "ab") ∧
    (zeroDimensional (.string "ab") = true → flattenRow Join.zeroHash blankFormats .whole 1
      (.string "ab") = .error (.assertion "index out of bounds: the len is 0 but the index is 0")) ∧
    (zeroDimensional (.string "ab") = false → ∃ rows log,
      flattenRow Join.zeroHash blankFormats .whole 1 (.string "ab") = .ok (rows, log) ∧
      ((∃ entries, Flattens (.string "ab") entries ∧ log = [] ∧ rows.length = entries.length ∧
          ∀ (i : ℕ) e, entries[i]? = some e → rows[i]? = some (Join.zeroHash.withShardOf
            (Join.zeroHash.forValues [.pointer 1, .int i]) 1, .tuple [.string "ab", e])) ∨
        ((∀ entries, ¬ Flattens (.string "ab") entries) ∧ rows = [] ∧
          ∃ msg, log = [.valueError msg]))) ∧
    (IsEmptyTarget (.string "ab") →
      flattenRow Join.zeroHash blankFormats .whole 1 (.string "ab") = .ok ([], [])) :=
  ⟨rfl, flatten_row_loses_nothing _ _ _ _ _ _ rfl⟩

/-- An array with no element but three entries along axis 0 gives three rows, one per
sub-array of shape `[0]`. -/
example : ∃ rows, flattenRow Join.zeroHash blankFormats .whole 1
    (.intArray ⟨[3, 0], [], rfl, by decide⟩) = .ok (rows, []) ∧ rows.length = 3 :=
  ⟨_, rfl, rfl⟩

/-- A zero-dimensional int array (`numpy.array(5)`) makes the closure panic in `outer_iter`,
where every other value that cannot be flattened logs a `ValueError`. -/
theorem flattenRow_zeroDimensional_panics :
    flattenRow Join.zeroHash blankFormats .whole 1 (.intArray ⟨[], [5], rfl, by decide⟩) =
      .error (.assertion "index out of bounds: the len is 0 but the index is 0") :=
  rfl

end Flatten
end Pathway
