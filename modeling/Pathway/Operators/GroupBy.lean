import Pathway.Operators.Ix
import Pathway.Operators.Join
import Pathway.Operators.Tuples

/-! `group_by_table` at one time, with `Count` and general (`ReducerImpl`) reducers. The
grouping values of a row give it the key of its group: none, logged as `ErrorInGroupby`,
when one of them is `Value::Error`; under `set_id` the pointer its one grouping value holds;
else `ShardPolicy::generate_key` of them. Each reducer reduces, group by group, the rows
admitted to it: all of them, or under `skip_errors` those without `Value::Error` among the
values of its columns. The reduced columns are joined by group key, in reducer order, into
a tuple; with no reducer each group gets an empty tuple. The reducer factory is not in the
source: a general reducer is given by its `init`, `combine` and `finish`, and creating it
does not fail. Persistence is off (`maybe_persist` and `filter_out_persisted` return their
input) and `arrange` is the identity. -/
namespace Pathway
namespace GroupBy
open ZSet

/-- A `ReducerImpl`: the state of a row from its key and reduced values, the state of a
group from its rows' states with their counts, and the group's value. A group's states
reach `combine` in the order `le` of `reduce`'s input. -/
structure GeneralReducer where
  State : Type
  [decEq : DecidableEq State]
  le : State → State → Bool
  init : Key → List Value → Except DataError State
  combine : List (State × ℕ) → Except DataError State
  finish : State → Value

attribute [instance] GeneralReducer.decEq

/-- The reducers modelled here: `CountReducer` and the general ones. -/
inductive Reducer where
  | count
  | general (r : GeneralReducer)

/-- `ReducerData`: a reducer, the columns it reduces, and `skip_errors`. -/
structure ReducerData where
  reducer : Reducer
  columnPaths : List ColumnPath
  skipErrors : Bool

/-- The key of a row's group, from the closure of `with_new_key`: none, logging
`ErrorInGroupby`, when a grouping value is `Value::Error`; under `set_id` the pointer the
first one holds (`as_pointer().unwrap_with_reporter(..)`); else `generate_key` of them. -/
def newKey (h : Join.KeyHash) (setId : Bool) (paths : List ColumnPath) (r : Row) :
    Except Error (Option Key × List DataError) := do
  let newKeyParts ← ColumnPath.extractAll paths r.1 r.2
  if newKeyParts.contains .error then pure (none, [.errorInGroupby])
  else if setId then
    match newKeyParts.head? with
    | some p => (fun k => (some k, [])) <$> Ix.unwrapPointer p
    | none => throw (.assertion "called Option::unwrap() on a None value")
  else pure (some (h.generateKey newKeyParts), [])

/-- `with_new_key`: every row that has a group, as `(key, new_key, values)`. -/
def withNewKey (h : Join.KeyHash) (setId : Bool) (paths : List ColumnPath) :
    ZSet Row → Except Error (ZSet (Key × Key × Value) × List DataError)
  | [] => pure ([], [])
  | (r, d) :: z => do
    let (g, log) ← newKey h setId paths r
    let (rest, logs) ← withNewKey h setId paths z
    pure (g.toList.map (fun g => ((r.1, g, r.2), d)) ++ rest, log ++ logs)

/-- `with_extracted_value`: the rows admitted to a reducer, with the values of its columns;
under `skip_errors` a row with `Value::Error` among them is dropped. -/
def withExtractedValue (data : ReducerData) (z : ZSet (Key × Key × Value)) :
    Except Error (ZSet (Key × Key × List Value)) :=
  flatMapE (fun r => do
    let newValues ← ColumnPath.extractAll data.columnPaths r.1 r.2.2
    pure (if newValues.contains .error && data.skipErrors then [] else [(r.1, r.2.1, newValues)])) z

/-- The logic of differential's `count`: a key's one record with its count. -/
def countLogic (_key : Key) (input : List (Unit × ℤ)) :
    Except Error (List (ℤ × ℤ) × List DataError) :=
  pure ((input.head?.map fun p => (p.2, 1)).toList, [])

/-- `CountReducer::reduce`: each group with the count of its rows, `Value::from(count as i64)`. -/
def reduceCount (z : ZSet (Key × Key × List Value)) :
    Except Error (ZSet (Key × Value) × List DataError) := do
  let (counts, log) ← reduce (fun _ _ => true) countLogic (ZSet.map (fun r => (r.2.1, ())) z)
  pure (ZSet.map (fun a => (a.1, .int a.2)) counts, log)

section General
variable (R : GeneralReducer)

/-- The order of `Option<State>`: `None` first. -/
def stateLe : Option R.State → Option R.State → Bool
  | none, _ => true
  | some _, none => false
  | some a, some b => R.le a b

/-- The `init` map on a row: its group key with its state, none where its values hold
`Value::Error` or `init` fails, which is logged. -/
def initRow (r : Key × Key × List Value) : (Key × Option R.State) × List DataError :=
  if r.2.2.contains .error then ((r.2.1, none), [])
  else match R.init r.1 r.2.2 with
    | .ok s => ((r.2.1, some s), [])
    | .error e => ((r.2.1, none), [e])

/-- `usize::try_from(cnt).unwrap().try_into().unwrap()`: a count as a non-zero `usize`. -/
def toCount (c : ℤ) : Except Error ℕ :=
  if 0 < c then pure c.toNat else throw (.assertion "called Result::unwrap() on an Err value")

/-- `(state.as_ref().unwrap(), count)`: a state of a group with its count. -/
def stateCount (p : Option R.State × ℤ) : Except Error (R.State × ℕ) :=
  match p.1 with
  | some s => (s, ·) <$> toCount p.2
  | none => throw (.assertion "called Option::unwrap() on a None value")

/-- The logic of `reduce` on a group's states: none if one of them is none, else `combine`
of them with their counts, none if it fails, which is logged. -/
def combineLogic (_key : Key) (input : List (Option R.State × ℤ)) :
    Except Error (List (Option R.State × ℤ) × List DataError) :=
  if input.any (·.1.isNone) then pure ([(none, 1)], [])
  else do
    let states ← input.mapM (stateCount R)
    match R.combine states with
    | .ok s => pure ([(some s, 1)], [])
    | .error e => pure ([(none, 1)], [e])

/-- The final map: `finish` of a group's state, `Value::Error` for none. -/
def finishState : Option R.State → Value
  | some s => R.finish s
  | none => .error

/-- `DataflowReducer::reduce` of a `ReducerImpl`. -/
def reduceGeneral (z : ZSet (Key × Key × List Value)) :
    Except Error (ZSet (Key × Value) × List DataError) := do
  let (reduced, log) ← reduce (stateLe R) (combineLogic R) (ZSet.map (fun r => (initRow R r).1) z)
  pure (ZSet.map (fun a => (a.1, finishState R a.2)) reduced,
    List.flatMap z (fun u => (initRow R u.1).2) ++ log)

end General

/-- One reduced column: the reducer over the rows admitted to it. -/
def reduceColumn (withNewKey : ZSet (Key × Key × Value)) (data : ReducerData) :
    Except Error (ZSet (Key × Value) × List DataError) := do
  let values ← withExtractedValue data withNewKey
  match data.reducer with
  | .count => reduceCount values
  | .general R => reduceGeneral R values

/-- `group_by_table`: the reduced columns joined by group key into tuples in reducer order;
with no reducer, an empty tuple per group. -/
def groupByTable (h : Join.KeyHash) (paths : List ColumnPath) (reducers : List ReducerData)
    (setId : Bool) (z : ZSet Row) : Except Error (ZSet Row × List DataError) := do
  if setId = true ∧ paths.length ≠ 1 then
    throw (.assertion "assertion failed: grouping_columns_paths.len() == 1")
  let (keyed, log) ← withNewKey h setId paths z
  let reducedColumns ← reducers.mapM (reduceColumn keyed)
  let logs := log ++ reducedColumns.flatMap (·.2)
  match reducedColumns with
  | first :: rest =>
    let joined := (rest.map (·.1)).foldl Tuples.joinMore (ZSet.map (fun a => (a.1, [a.2])) first.1)
    pure (ZSet.map (fun a => (a.1, Value.tuple a.2)) joined, logs)
  | [] => pure (distinct (ZSet.map (fun r => (r.2.1, Value.tuple [])) keyed), logs)

/-- The group of grouping values: none when one of them is `Value::Error`; under `set_id`
the pointer the first one holds; else their generated key. -/
def groupOf (h : Join.KeyHash) (setId : Bool) (parts : List Value) : Option Key :=
  if parts.contains .error then none
  else if setId then parts.head?.bind Value.asPointer
  else some (h.generateKey parts)

/-- Whether a row with these reduced values is admitted to a reducer. -/
def admitted (data : ReducerData) (values : List Value) : Bool :=
  !(values.contains .error && data.skipErrors)

/-- A row's state in a general reducer: none when its values hold `Value::Error` or `init`
fails. -/
def stateOf (R : GeneralReducer) (k : Key) (values : List Value) : Option R.State :=
  if values.contains .error then none else (R.init k values).toOption

/-- The state of a group from its states with their counts: none when one of them is none
or `combine` fails. -/
def combinedState (R : GeneralReducer) (input : List (Option R.State × ℤ)) : Option R.State :=
  if input.any (·.1.isNone) then none
  else (R.combine (input.filterMap fun p => p.1.map (·, p.2.toNat))).toOption

section Spec
variable (h : Join.KeyHash) (setId : Bool) (G : Key → Value → List Value)
  (Vs : ReducerData → Key → Value → List Value)

/-- The rows that have a group, as `(key, group, values)`; `G` gives a row's grouping
values. -/
def keyedRows (z : ZSet Row) : ZSet (Key × Key × Value) :=
  ZSet.flatMap (fun r => (groupOf h setId (G r.1 r.2)).toList.map fun g => (r.1, g, r.2)) z

/-- The rows admitted to a reducer, as `(key, group, reduced values)`; `Vs data` gives a
row's values in the reducer's columns. -/
def admittedRows (data : ReducerData) (z : ZSet Row) : ZSet (Key × Key × List Value) :=
  ZSet.flatMap (fun r => match groupOf h setId (G r.1 r.2) with
    | some g => if admitted data (Vs data r.1 r.2) then [(r.1, g, Vs data r.1 r.2)] else []
    | none => []) z

/-- Whether the group `g` has a live row. -/
def hasRow (z : ZSet Row) (g : Key) : Bool :=
  (support z).any fun r => groupOf h setId (G r.1 r.2) = some g

/-- Whether the group `g` has a live row admitted to a reducer. -/
def hasAdmitted (data : ReducerData) (z : ZSet Row) (g : Key) : Bool :=
  (support z).any fun r =>
    groupOf h setId (G r.1 r.2) = some g && admitted data (Vs data r.1 r.2)

/-- The rows of `g` admitted to a reducer, counted with their multiplicities. -/
def admittedCount (data : ReducerData) (z : ZSet Row) (g : Key) : ℤ :=
  wsum (fun r => if groupOf h setId (G r.1 r.2) = some g ∧
    admitted data (Vs data r.1 r.2) = true then 1 else 0) z

/-- The states of the rows of `g` admitted to a general reducer, each once with its count,
in the order `reduce` gives them to `combine`. -/
def groupStates (R : GeneralReducer) (data : ReducerData) (z : ZSet Row) (g : Key) :
    List (Option R.State × ℤ) :=
  (group (ZSet.flatMap (fun r => match groupOf h setId (G r.1 r.2) with
    | some g => if admitted data (Vs data r.1 r.2) then [(g, stateOf R r.1 (Vs data r.1 r.2))]
      else []
    | none => []) z) g).mergeSort fun a b => stateLe R a.1 b.1

/-- A reducer's value for the group `g`: the count of its admitted rows, or `finish` of the
state combined from theirs, `Value::Error` when that is none. -/
def reducerResult (data : ReducerData) (z : ZSet Row) (g : Key) : Value :=
  match data.reducer with
  | .count => .int (admittedCount h setId G Vs data z g)
  | .general R => finishState R (combinedState R (groupStates h setId G Vs R data z g))

/-- A reduced column: the reducer's value for each group with a row admitted to it. -/
def reducedColumn (data : ReducerData) (z : ZSet Row) (g : Key) : Option Value :=
  if hasAdmitted h setId G Vs data z g then some (reducerResult h setId G Vs data z g) else none

/-- The output row of the group `g`: where `g` has a live row and, for every reducer with
`skip_errors`, a live row admitted to it, the tuple of the reducers' values in order. -/
def groupRows (reducers : List ReducerData) (z : ZSet Row) (g : Key) : Option Value :=
  if hasRow h setId G z g && reducers.all fun data =>
    !data.skipErrors || hasAdmitted h setId G Vs data z g
  then some (.tuple (reducers.map fun data => reducerResult h setId G Vs data z g)) else none

end Spec

section Steps
variable {h : Join.KeyHash} {setId : Bool} {G : Key → Value → List Value}
  {Vs : ReducerData → Key → Value → List Value}

/-- The key of a row whose grouping values extract is their group. -/
theorem newKey_eq {paths : List ColumnPath} {r : Row} {parts : List Value}
    (hparts : ColumnPath.extractAll paths r.1 r.2 = .ok parts)
    (hptr : setId = true → parts.contains .error = false →
      (parts.head?.bind Value.asPointer).isSome) :
    ∃ log, newKey h setId paths r = .ok (groupOf h setId parts, log) := by
  rw [newKey, hparts, ok_bind]
  cases hc : parts.contains .error
  · cases setId
    · exact ⟨[], by simp only [groupOf, hc, Bool.false_eq_true, ↓reduceIte]; rfl⟩
    · obtain ⟨k, hk⟩ := Option.isSome_iff_exists.1 (hptr rfl hc)
      obtain ⟨p, hp, hpk⟩ := Option.bind_eq_some.1 hk
      refine ⟨[], ?_⟩
      simp only [groupOf, hc, hp, Option.some_bind, Bool.false_eq_true, ↓reduceIte, Ix.unwrapPointer,
        hpk]
      rfl
  · exact ⟨[.errorInGroupby], by simp only [groupOf, hc, ↓reduceIte]; rfl⟩

variable (h setId G) in
/-- `with_new_key` keeps the rows that have a group, keyed by it. -/
theorem withNewKey_eq (paths : List ColumnPath) :
    ∀ z : ZSet Row, (∀ u ∈ z, ColumnPath.extractAll paths u.1.1 u.1.2 = .ok (G u.1.1 u.1.2)) →
      (setId = true → ∀ u ∈ z, (G u.1.1 u.1.2).contains .error = false →
        ((G u.1.1 u.1.2).head?.bind Value.asPointer).isSome) →
      ∃ log, withNewKey h setId paths z = .ok (keyedRows h setId G z, log)
  | [], _, _ => ⟨[], rfl⟩
  | (r, d) :: z, hG, hptr => by
    obtain ⟨l, hl⟩ := newKey_eq (h := h) (hG _ (List.mem_cons_self _ _))
      fun hs => hptr hs _ (List.mem_cons_self _ _)
    obtain ⟨ls, hls⟩ := withNewKey_eq paths z (fun u hu => hG u (List.mem_cons_of_mem _ hu))
      fun hs u hu => hptr hs u (List.mem_cons_of_mem _ hu)
    refine ⟨l ++ ls, ?_⟩
    simp only [withNewKey, hl, ok_bind, hls, keyedRows, ZSet.flatMap, List.flatMap_cons,
      List.map_map, Function.comp_def]
    rfl

variable (h setId G Vs) in
/-- A reducer's `with_extracted_value` of the keyed rows is the rows admitted to it. -/
theorem withExtractedValue_eq (data : ReducerData) (z : ZSet Row)
    (hV : ∀ u ∈ z, (groupOf h setId (G u.1.1 u.1.2)).isSome →
      ColumnPath.extractAll data.columnPaths u.1.1 u.1.2 = .ok (Vs data u.1.1 u.1.2)) :
    withExtractedValue data (keyedRows h setId G z) = .ok (admittedRows h setId G Vs data z) := by
  rw [withExtractedValue, flatMapE_eq_ok fun r =>
    if admitted data (Vs data r.1 r.2.2) then [(r.1, r.2.1, Vs data r.1 r.2.2)] else []]
  · rw [keyedRows, flatMap_flatMap, admittedRows]
    congr 2
    funext r
    cases groupOf h setId (G r.1 r.2) <;> simp
  · intro u hu
    obtain ⟨a, ha, hmem⟩ := fst_mem_flatMap hu
    obtain ⟨g, hg, hu1⟩ := List.mem_map.1 hmem
    rw [← hu1, hV a ha (Option.isSome_iff_exists.2 ⟨g, Option.mem_toList.1 hg⟩), ok_bind]
    dsimp only [admitted]
    cases (Vs data a.1.1 a.1.2).contains .error && data.skipErrors <;> rfl

/-- A map of the admitted rows, row by row of the input. -/
theorem map_admittedRows {β : Type} (f : Key × Key × List Value → β) (data : ReducerData)
    (z : ZSet Row) : ZSet.map f (admittedRows h setId G Vs data z) =
      ZSet.flatMap (fun r => match groupOf h setId (G r.1 r.2) with
        | some g => if admitted data (Vs data r.1 r.2) then [f (r.1, g, Vs data r.1 r.2)] else []
        | none => []) z := by
  rw [map_eq_flatMap, admittedRows, flatMap_flatMap]
  congr 1
  funext r
  cases groupOf h setId (G r.1 r.2) with
  | none => rfl
  | some g => cases admitted data (Vs data r.1 r.2) <;> rfl

variable {z : ZSet Row}

/-- The groups a reducer's rows fall in are those with a live row admitted to it. -/
theorem mem_groupKeys_admitted (hz : NonNeg z) {ν : Type} [DecidableEq ν]
    {f : Key × Key × List Value → Key × ν} (hf : ∀ r, (f r).1 = r.2.1) (data : ReducerData)
    (g : Key) : g ∈ groupKeys (ZSet.map f (admittedRows h setId G Vs data z)) ↔
      hasAdmitted h setId G Vs data z g = true := by
  simp only [mem_groupKeys, map_admittedRows, hz.count_flatMap_ne_zero, hasAdmitted,
    List.any_eq_true, mem_support, Bool.and_eq_true, decide_eq_true_eq]
  constructor
  · rintro ⟨v, r, hr, hmem⟩
    refine ⟨r, hr, ?_⟩
    cases hg : groupOf h setId (G r.1 r.2) with
    | none => simp [hg] at hmem
    | some g' =>
      cases ha : admitted data (Vs data r.1 r.2)
      · simp [hg, ha] at hmem
      · simp only [hg, ha, ↓reduceIte, List.mem_singleton] at hmem
        exact ⟨congrArg some ((hf _).symm.trans (congrArg Prod.fst hmem).symm), rfl⟩
  · rintro ⟨r, hr, hg, ha⟩
    refine ⟨(f (r.1, g, Vs data r.1 r.2)).2, r, hr, ?_⟩
    simp only [hg, ha, ↓reduceIte, List.mem_singleton]
    exact Prod.ext (hf (r.1, g, Vs data r.1 r.2)).symm rfl

/-- The count of a group in the count reducer's input. -/
theorem count_admittedRows_unit (data : ReducerData) (g : Key) :
    count (ZSet.map (fun r => (r.2.1, ())) (admittedRows h setId G Vs data z)) (g, ()) =
      admittedCount h setId G Vs data z g := by
  rw [count_eq_wsum, map_admittedRows, wsum_flatMap, admittedCount]
  congr 1
  funext r
  cases groupOf h setId (G r.1 r.2) with
  | none => simp
  | some g' => cases admitted data (Vs data r.1 r.2) <;> simp

end Steps

private theorem head?_of_forall_eq {α : Type} {l : List α} {y : α} (hy : y ∈ l)
    (h : ∀ x ∈ l, x = y) : l.head? = some y := by
  cases l with
  | nil => cases hy
  | cons x l => exact congrArg some (h x (List.mem_cons_self _ _))

/-- `CountReducer::reduce` gives each group of its rows their count. -/
theorem reduceCount_eq (z : ZSet (Key × Key × List Value)) :
    ∃ log, reduceCount z = .ok (ofList ((groupKeys (ZSet.map (fun r => (r.2.1, ())) z)).map
      fun g => (g, Value.int (count (ZSet.map (fun r => (r.2.1, ())) z) (g, ())))), log) := by
  have hlogic : ∀ g ∈ groupKeys (ZSet.map (fun r => (r.2.1, ())) z), ∃ log, countLogic g
      ((group (ZSet.map (fun r => (r.2.1, ())) z) g).mergeSort fun _ _ => true) =
        .ok ([(count (ZSet.map (fun r => (r.2.1, ())) z) (g, ()), 1)], log) := fun g hg => by
    obtain ⟨⟨⟩, hu⟩ := mem_groupKeys.1 hg
    have hperm := List.mergeSort_perm (group (ZSet.map (fun r => (r.2.1, ())) z) g) fun _ _ => true
    have hhead := head?_of_forall_eq (hperm.mem_iff.2 (mem_group.2 ⟨hu, rfl⟩)) fun x hx =>
      Prod.ext rfl (mem_group.1 (hperm.mem_iff.1 hx)).2
    exact ⟨[], by rw [countLogic, hhead]; rfl⟩
  obtain ⟨log, hlog⟩ := reduceKeys_exists_ofList _ _ hlogic
  refine ⟨log, ?_⟩
  rw [reduceCount, reduce, hlog, ok_bind]
  dsimp only
  rw [map_ofList, List.map_map]
  rfl

section General
variable (R : GeneralReducer)

theorem initRow_fst (k g : Key) (values : List Value) :
    (initRow R (k, g, values)).1 = (g, stateOf R k values) := by
  unfold initRow stateOf
  split
  · rfl
  · cases R.init k values <;> rfl

theorem mapM_stateCount : ∀ input : List (Option R.State × ℤ),
    input.any (·.1.isNone) = false → (∀ p ∈ input, 0 < p.2) →
    input.mapM (stateCount R) = .ok (input.filterMap fun p => p.1.map (·, p.2.toNat))
  | [], _, _ => rfl
  | (none, _) :: _, hn, _ => by simp at hn
  | (some s, c) :: input, hn, hpos => by
    simp only [List.any_cons, Option.isNone_some, Bool.false_or] at hn
    have hs : stateCount R (some s, c) = .ok (s, c.toNat) := by
      rw [stateCount, toCount, if_pos (hpos _ (List.mem_cons_self _ _))]
      rfl
    rw [List.mapM_cons, hs, ok_bind,
      mapM_stateCount input hn fun p hp => hpos p (List.mem_cons_of_mem _ hp), ok_bind]
    rfl

/-- On states of positive counts, the logic of `reduce` gives the combined state. -/
theorem combineLogic_eq (k : Key) (input : List (Option R.State × ℤ))
    (hpos : ∀ p ∈ input, 0 < p.2) :
    ∃ log, combineLogic R k input = .ok ([(combinedState R input, 1)], log) := by
  unfold combineLogic combinedState
  cases hn : input.any (·.1.isNone)
  · rw [if_neg Bool.false_ne_true, if_neg Bool.false_ne_true, mapM_stateCount R input hn hpos,
      ok_bind]
    cases R.combine (input.filterMap fun p => p.1.map (·, p.2.toNat))
    · exact ⟨_, rfl⟩
    · exact ⟨[], rfl⟩
  · exact ⟨[], by rw [if_pos rfl, if_pos rfl]; rfl⟩

/-- `DataflowReducer::reduce` of a `ReducerImpl` on rows whose states have non-negative
counts gives each group `finish` of its combined state. -/
theorem reduceGeneral_eq (z : ZSet (Key × Key × List Value))
    (hz : NonNeg (ZSet.map (fun r => (initRow R r).1) z)) :
    ∃ log, reduceGeneral R z = .ok (ofList ((groupKeys (ZSet.map (fun r => (initRow R r).1) z)).map
      fun g => (g, finishState R (combinedState R
        ((group (ZSet.map (fun r => (initRow R r).1) z) g).mergeSort
          fun a b => stateLe R a.1 b.1)))), log) := by
  have hlogic : ∀ g ∈ groupKeys (ZSet.map (fun r => (initRow R r).1) z), ∃ log, combineLogic R g
      ((group (ZSet.map (fun r => (initRow R r).1) z) g).mergeSort fun a b => stateLe R a.1 b.1) =
        .ok ([(combinedState R ((group (ZSet.map (fun r => (initRow R r).1) z) g).mergeSort
          fun a b => stateLe R a.1 b.1), 1)], log) := fun g _ =>
    combineLogic_eq R g _ fun p hp => by
      have hp := mem_group.1 ((List.mergeSort_perm _ _).mem_iff.1 hp)
      rw [hp.2]
      exact lt_of_le_of_ne (hz _) (Ne.symm hp.1)
  obtain ⟨log, hlog⟩ := reduceKeys_exists_ofList _ _ hlogic
  refine ⟨List.flatMap z (fun u => (initRow R u.1).2) ++ log, ?_⟩
  rw [reduceGeneral, reduce, hlog, ok_bind]
  dsimp only
  rw [map_ofList, List.map_map]
  rfl

end General

section Columns
variable {h : Join.KeyHash} {setId : Bool} {G : Key → Value → List Value}
  {Vs : ReducerData → Key → Value → List Value} {z : ZSet Row}

/-- The states of a general reducer's admitted rows, row by row of the input. -/
theorem map_initRow_admittedRows (R : GeneralReducer) (data : ReducerData) :
    ZSet.map (fun r => (initRow R r).1) (admittedRows h setId G Vs data z) =
      ZSet.flatMap (fun r => match groupOf h setId (G r.1 r.2) with
        | some g => if admitted data (Vs data r.1 r.2) then [(g, stateOf R r.1 (Vs data r.1 r.2))]
          else []
        | none => []) z := by
  rw [map_admittedRows]
  simp only [initRow_fst]

/-- Each reducer gives a column of the rows of its groups. -/
theorem reduceColumn_hasRows (hz : NonNeg z) (data : ReducerData)
    (hV : ∀ u ∈ z, (groupOf h setId (G u.1.1 u.1.2)).isSome →
      ColumnPath.extractAll data.columnPaths u.1.1 u.1.2 = .ok (Vs data u.1.1 u.1.2)) :
    ∃ c, reduceColumn (keyedRows h setId G z) data = .ok c ∧
      HasRows c.1 (reducedColumn h setId G Vs data z) := by
  rcases data with ⟨_ | R, paths, skip⟩
  · obtain ⟨log, hlog⟩ := reduceCount_eq (admittedRows h setId G Vs ⟨.count, paths, skip⟩ z)
    refine ⟨_, by rw [reduceColumn, withExtractedValue_eq h setId G Vs _ z hV, ok_bind]; exact hlog, ?_⟩
    refine (funext fun g => ?_ : _ = reducedColumn h setId G Vs ⟨.count, paths, skip⟩ z) ▸
      hasRows_ofList_map (nodup_groupKeys _) _
    simp only [reducedColumn, mem_groupKeys_admitted hz (f := fun r => (r.2.1, ())) (fun _ => rfl),
      count_admittedRows_unit]
    rfl
  · have hS : ZSet.map (fun r => (initRow R r).1)
        (admittedRows h setId G Vs ⟨.general R, paths, skip⟩ z) = _ :=
      map_initRow_admittedRows R _
    obtain ⟨log, hlog⟩ := reduceGeneral_eq R (admittedRows h setId G Vs ⟨.general R, paths, skip⟩ z)
      (hS ▸ nonNeg_flatMap hz _)
    refine ⟨_, by rw [reduceColumn, withExtractedValue_eq h setId G Vs _ z hV, ok_bind]; exact hlog, ?_⟩
    refine (funext fun g => ?_ : _ = reducedColumn h setId G Vs ⟨.general R, paths, skip⟩ z) ▸
      hasRows_ofList_map (nodup_groupKeys _) _
    simp only [reducedColumn, mem_groupKeys_admitted hz (f := fun r => (initRow R r).1)
      (fun ⟨k, g, vs⟩ => congrArg Prod.fst (initRow_fst R k g vs))]
    rw [hS]
    rfl

/-- The join chain's row of a group: the reducers' values in order, where every reduced
column has one. -/
theorem rowOf_reducedColumns {ds : List ReducerData} {cs : List (ZSet Row × List DataError)}
    (hc : List.Forall₂ (fun data c => HasRows c.1 (reducedColumn h setId G Vs data z)) ds cs)
    (g : Key) : Tuples.rowOf (cs.map (·.1)) g =
      if ds.all fun data => hasAdmitted h setId G Vs data z g
      then some (ds.map fun data => reducerResult h setId G Vs data z g) else none := by
  induction hc with
  | nil => rfl
  | @cons d c ds cs hd _ ih =>
    rw [List.map_cons, Tuples.rowOf_cons, hd.lookup_eq, ih, reducedColumn, List.all_cons]
    cases hasAdmitted h setId G Vs d z g <;> cases ds.all fun data => hasAdmitted h setId G Vs data z g <;>
      rfl

/-- The join chain of reduced columns that are tables gives each group its row. -/
theorem joinColumns_hasRows {first : ZSet Row × List DataError}
    {rest : List (ZSet Row × List DataError)} (hfirst : IsTable first.1)
    (hrest : ∀ c ∈ rest, IsTable c.1) :
    HasRows ((rest.map (·.1)).foldl Tuples.joinMore (ZSet.map (fun a => (a.1, [a.2])) first.1))
      (Tuples.rowOf ((first :: rest).map (·.1))) := by
  have hinit : HasRows (ZSet.map (fun a => (a.1, [a.2])) first.1) (Tuples.rowOf [first.1]) := by
    have := hfirst.hasRows.map fun _ v => [v]
    refine ⟨this.isTable, fun k => (this.lookup_eq k).trans ?_⟩
    rw [Tuples.rowOf_cons, Tuples.rowOf_nil]
    cases lookup first.1 k <;> rfl
  exact Tuples.foldl_joinMore_hasRows _ [first.1] _ hinit fun c hc => by
    obtain ⟨c', hc', rfl⟩ := List.mem_map.1 hc
    exact hrest c' hc'

/-- With no reducer, `distinct` of the groups of the keyed rows gives each group with a live
row an empty tuple. -/
theorem distinct_groups_hasRows (hz : NonNeg z) :
    HasRows (distinct (ZSet.map (fun r => (r.2.1, Value.tuple [])) (keyedRows h setId G z)))
      fun g => if hasRow h setId G z g then some (.tuple []) else none := by
  have hmap : ZSet.map (fun r => (r.2.1, Value.tuple [])) (keyedRows h setId G z) =
      ZSet.flatMap (fun r => (groupOf h setId (G r.1 r.2)).toList.map fun g => (g, Value.tuple [])) z := by
    rw [map_eq_flatMap, keyedRows, flatMap_flatMap]
    congr 1
    funext r
    cases groupOf h setId (G r.1 r.2) <;> rfl
  have hmem : ∀ a, a ∈ support (ZSet.map (fun r => (r.2.1, Value.tuple [])) (keyedRows h setId G z)) ↔
      a.2 = .tuple [] ∧ hasRow h setId G z a.1 = true := fun a => by
    rw [mem_support, hmap, hz.count_flatMap_ne_zero]
    simp only [hasRow, List.any_eq_true, mem_support, decide_eq_true_eq]
    constructor
    · rintro ⟨r, hr, ha⟩
      obtain ⟨g, hg, rfl⟩ := List.mem_map.1 ha
      exact ⟨rfl, r, hr, Option.mem_toList.1 hg⟩
    · rintro ⟨h2, r, hr, hg⟩
      exact ⟨r, hr, List.mem_map.2 ⟨a.1, by rw [hg]; exact List.mem_singleton_self _,
        Prod.ext rfl h2.symm⟩⟩
  refine HasRows.of_equiv_ofList ((nodup_support _).map_on fun a ha b hb hab =>
    Prod.ext hab (((hmem a).1 ha).1.trans ((hmem b).1 hb).1.symm)) (ZSet.Equiv.refl _) fun g v => ?_
  rw [hmem]
  constructor
  · rintro ⟨rfl, hr⟩
    rw [if_pos hr]
  · intro hv
    split_ifs at hv with hr
    exact ⟨(Option.some.inj hv).symm, hr⟩

theorem hasRow_of_hasAdmitted {data : ReducerData} {g : Key}
    (ha : hasAdmitted h setId G Vs data z g = true) : hasRow h setId G z g = true := by
  obtain ⟨r, hr, hp⟩ := List.any_eq_true.1 ha
  rw [Bool.and_eq_true] at hp
  exact List.any_eq_true.2 ⟨r, hr, hp.1⟩

/-- Without `skip_errors` every row of a group is admitted. -/
theorem hasAdmitted_of_skipErrors_false {data : ReducerData} (hs : data.skipErrors = false)
    (g : Key) : hasAdmitted h setId G Vs data z g = hasRow h setId G z g := by
  simp [hasAdmitted, hasRow, admitted, hs]

/-- With at least one reducer, every reduced column has a group exactly when it has a live
row and a row admitted to every reducer with `skip_errors`. -/
theorem all_hasAdmitted {ds : List ReducerData} (hne : ds ≠ []) (g : Key) :
    (ds.all fun data => hasAdmitted h setId G Vs data z g) =
      (hasRow h setId G z g && ds.all fun data =>
        !data.skipErrors || hasAdmitted h setId G Vs data z g) := by
  rw [Bool.eq_iff_iff, Bool.and_eq_true, List.all_eq_true, List.all_eq_true]
  constructor
  · intro hall
    obtain ⟨d, hd⟩ := List.exists_mem_of_ne_nil ds hne
    exact ⟨hasRow_of_hasAdmitted (hall d hd), fun d hd => by simp [hall d hd]⟩
  · rintro ⟨hrow, hall⟩ d hd
    cases hs : d.skipErrors
    · rw [hasAdmitted_of_skipErrors_false hs, hrow]
    · simpa [hs] using hall d hd

theorem isTable_of_forall₂ {ds : List ReducerData} {cs : List (ZSet Row × List DataError)}
    (hc : List.Forall₂ (fun data c => HasRows c.1 (reducedColumn h setId G Vs data z)) ds cs) :
    ∀ c ∈ cs, IsTable c.1 := by
  induction hc with
  | nil => exact fun _ hc => absurd hc (List.not_mem_nil _)
  | cons hd _ ih => exact List.forall_mem_cons.2 ⟨hd.isTable, ih⟩

/-- A general reducer's value for a group is `Value::Error` when a live row of the group
admitted to it has `Value::Error` among its reduced values or fails `init`, or when
`combine` fails on the group's states. -/
theorem reducerResult_eq_error (hz : NonNeg z) {data : ReducerData} {R : GeneralReducer}
    (hR : data.reducer = .general R) {g : Key}
    (hcause : (∃ r, count z r ≠ 0 ∧ groupOf h setId (G r.1 r.2) = some g ∧
        admitted data (Vs data r.1 r.2) = true ∧
        ((Vs data r.1 r.2).contains .error = true ∨ ∃ e, R.init r.1 (Vs data r.1 r.2) = .error e)) ∨
      ∃ e, R.combine ((groupStates h setId G Vs R data z g).filterMap
        fun p => p.1.map (·, p.2.toNat)) = .error e) :
    reducerResult h setId G Vs data z g = .error := by
  have hnone : combinedState R (groupStates h setId G Vs R data z g) = none := by
    unfold combinedState
    rcases hcause with ⟨r, hr, hg, ha, hs⟩ | ⟨e, he⟩
    · have hst : stateOf R r.1 (Vs data r.1 r.2) = none := by
        unfold stateOf
        rcases hs with hc | ⟨e, he⟩
        · rw [if_pos hc]
        · split
          · rfl
          · rw [he]; rfl
      have hmem : ∃ c, (none, c) ∈ groupStates h setId G Vs R data z g := by
        unfold groupStates
        refine ⟨_, (List.mergeSort_perm _ _).mem_iff.2 (mem_group.2
          ⟨(hz.count_flatMap_ne_zero _ _).2 ⟨r, hr, ?_⟩, rfl⟩)⟩
        simp [hg, ha, hst]
      obtain ⟨c, hc⟩ := hmem
      rw [if_pos (List.any_eq_true.2 ⟨_, hc, rfl⟩)]
    · split
      · rfl
      · rw [he]; rfl
  rw [reducerResult, hR]
  dsimp only
  rw [hnone]
  rfl

end Columns

/-- `group_by_table` with `Count` and general reducers, on an input of non-negative
multiplicities whose grouping values (`G`) and reduced values (`Vs`) extract, and under
`set_id` with one grouping column holding a pointer: its output has one row per group `g`
that has a live row and, for every reducer with `skip_errors`, a live row admitted to it,
namely `Tuple([r_1(g), ..., r_n(g)])` in reducer order (`groupRows`), with an empty tuple
for every group with a live row when there is no reducer; a row with `Value::Error` among
its grouping values is in no group. A general reducer's value for a group is
`Value::Error` when an admitted live row of the group has `Value::Error` among its reduced
values or fails `init`, or when `combine` fails. -/
theorem group_by_one_row_per_group (h : Join.KeyHash) (paths : List ColumnPath)
    (reducers : List ReducerData) (setId : Bool) (z : ZSet Row)
    (G : Key → Value → List Value) (Vs : ReducerData → Key → Value → List Value)
    (hz : NonNeg z) (hpaths : setId = true → paths.length = 1)
    (hG : ∀ u ∈ z, ColumnPath.extractAll paths u.1.1 u.1.2 = .ok (G u.1.1 u.1.2))
    (hptr : setId = true → ∀ u ∈ z, (G u.1.1 u.1.2).contains .error = false →
      ((G u.1.1 u.1.2).head?.bind Value.asPointer).isSome)
    (hV : ∀ data ∈ reducers, ∀ u ∈ z, (groupOf h setId (G u.1.1 u.1.2)).isSome →
      ColumnPath.extractAll data.columnPaths u.1.1 u.1.2 = .ok (Vs data u.1.1 u.1.2)) :
    (∃ out log, groupByTable h paths reducers setId z = .ok (out, log) ∧
      HasRows out (groupRows h setId G Vs reducers z)) ∧
    ∀ data ∈ reducers, ∀ R : GeneralReducer, data.reducer = .general R → ∀ g : Key,
      ((∃ r, count z r ≠ 0 ∧ groupOf h setId (G r.1 r.2) = some g ∧
          admitted data (Vs data r.1 r.2) = true ∧
          ((Vs data r.1 r.2).contains .error = true ∨ ∃ e, R.init r.1 (Vs data r.1 r.2) = .error e)) ∨
        ∃ e, R.combine ((groupStates h setId G Vs R data z g).filterMap
          fun p => p.1.map (·, p.2.toNat)) = .error e) →
      reducerResult h setId G Vs data z g = .error := by
  refine ⟨?_, fun data _ R hR g hcause => reducerResult_eq_error hz hR hcause⟩
  obtain ⟨log, hkeyed⟩ := withNewKey_eq h setId G paths z hG hptr
  have hcolumns : ∀ data ∈ reducers, ∃ c, reduceColumn (keyedRows h setId G z) data = .ok c ∧
      HasRows c.1 (reducedColumn h setId G Vs data z) := fun data hd =>
    reduceColumn_hasRows hz data (hV data hd)
  obtain ⟨cols, hcols, hrows⟩ := mapM_exists_ok reducers hcolumns
  have hassert : ¬(setId = true ∧ paths.length ≠ 1) := fun hs => hs.2 (hpaths hs.1)
  simp only [groupByTable, if_neg hassert, hkeyed, hcols, ok_bind, pure_eq_ok]
  cases hrows with
  | nil =>
    refine ⟨_, _, rfl, ?_⟩
    have hF : groupRows h setId G Vs [] z =
        fun g => if hasRow h setId G z g then some (.tuple []) else none :=
      funext fun g => by simp [groupRows]
    exact hF ▸ distinct_groups_hasRows hz
  | @cons d first ds rest hfirst hrest =>
    refine ⟨_, _, rfl, ?_⟩
    have hc : List.Forall₂ (fun data c => HasRows c.1 (reducedColumn h setId G Vs data z))
        (d :: ds) (first :: rest) := .cons hfirst hrest
    have hjoin := (joinColumns_hasRows hfirst.isTable
      (isTable_of_forall₂ hrest)).map fun _ vs => Value.tuple vs
    refine (funext fun g => ?_ : _ = groupRows h setId G Vs (d :: ds) z) ▸ hjoin
    rw [rowOf_reducedColumns hc, all_hasAdmitted (List.cons_ne_nil _ _), groupRows]
    split_ifs <;> rfl

/-- Rows grouped by their value, one of which is `Value::Error`. -/
def sampleRows : ZSet Row := [((1, .int 5), 1), ((2, .error), 1), ((3, .int 5), 2)]

theorem group_by_one_row_per_group_count :
    (∃ out log, groupByTable Join.zeroHash [.whole] [⟨.count, [.whole], true⟩] false sampleRows =
        .ok (out, log) ∧
      HasRows out (groupRows Join.zeroHash false (fun _ v => [v]) (fun _ _ v => [v])
        [⟨.count, [.whole], true⟩] sampleRows)) ∧
    ∀ data ∈ [(⟨.count, [.whole], true⟩ : ReducerData)], ∀ R : GeneralReducer,
      data.reducer = .general R → ∀ g : Key,
      ((∃ r, count sampleRows r ≠ 0 ∧ groupOf Join.zeroHash false [r.2] = some g ∧
          admitted data [r.2] = true ∧
          ([r.2].contains .error = true ∨ ∃ e, R.init r.1 [r.2] = .error e)) ∨
        ∃ e, R.combine ((groupStates Join.zeroHash false (fun _ v => [v]) (fun _ _ v => [v]) R data
          sampleRows g).filterMap fun p => p.1.map (·, p.2.toNat)) = .error e) →
      reducerResult Join.zeroHash false (fun _ v => [v]) (fun _ _ v => [v]) data sampleRows g =
        .error :=
  group_by_one_row_per_group Join.zeroHash [.whole] [⟨.count, [.whole], true⟩] false sampleRows
    (fun _ v => [v]) (fun _ _ v => [v])
    (fun a => by simp only [sampleRows, count_cons, count_nil]; split_ifs <;> decide)
    (fun h => absurd h Bool.false_ne_true) (fun _ _ => rfl) (fun h => absurd h Bool.false_ne_true)
    fun _ hd _ _ _ => by rw [List.mem_singleton.1 hd]; rfl

end GroupBy
end Pathway
