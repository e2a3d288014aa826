import Pathway.Engine.Table

/-! `tuples` and `columns_to_table`: the values of several columns of one universe, combined
per key. With no column the universe's keys get an empty tuple; with one or two columns the
values are taken as they are or paired by a `join_core`; from the third column on, a left
fold of `join_core`s appends each column's value. Arranging a collection does not change its
content, so `arrange` is the identity here. -/
namespace Pathway
namespace Tuples
open ZSet

/-- `TupleCollection`: the keys of a universe, the values of one column, or the pairs or the
longer tuples of values of the keys that the columns share. -/
inductive TupleCollection where
  | zero (keys : ZSet Key)
  | one (values : ZSet (Key × Value))
  | two (values : ZSet (Key × Value × Value))
  | more (values : ZSet (Key × List Value))

/-- The `join_core` of the first two columns: `once((*key, [first, second]))`. -/
def joinTwo (first second : ZSet (Key × Value)) : ZSet (Key × Value × Value) :=
  joinCore (fun k a b => [(k, (a, b))]) first second

/-- The `join_core` with the third column: `[first, second, third]`. -/
def joinThird (two : ZSet (Key × Value × Value)) (third : ZSet (Key × Value)) :
    ZSet (Key × List Value) :=
  joinCore (fun k ab c => [(k, [ab.1, ab.2, c])]) two third

/-- One turn of the loop over the further columns: `values.iter().chain([value])`. -/
def joinMore (more : ZSet (Key × List Value)) (column : ZSet (Key × Value)) :
    ZSet (Key × List Value) :=
  joinCore (fun k vs v => [(k, vs ++ [v])]) more column

/-- `tuples`. -/
def tuples (universeKeys : ZSet Key) : List (ZSet (Key × Value)) → TupleCollection
  | [] => .zero universeKeys
  | [first] => .one first
  | [first, second] => .two (joinTwo first second)
  | first :: second :: third :: columns =>
    .more (columns.foldl joinMore (joinThird (joinTwo first second) third))

/-- The records of a tuple collection as `map_wrapped_named` and `columns_to_table` read
them: each key with its values (`as_value_slice`). -/
def TupleCollection.rows : TupleCollection → ZSet (Key × List Value)
  | zero c => ZSet.map (fun k => (k, [])) c
  | one c => ZSet.map (fun a => (a.1, [a.2])) c
  | two c => ZSet.map (fun a => (a.1, [a.2.1, a.2.2])) c
  | more c => c

/-- `columns_to_table`: each key with `Value::from` its values, a tuple. -/
def columnsToTable (universeKeys : ZSet Key) (columns : List (ZSet (Key × Value))) :
    ZSet (Key × Value) :=
  ZSet.map (fun a => (a.1, .tuple a.2)) (tuples universeKeys columns).rows

/-- The row these operators should give a key: its value in each column, in column order,
when every column has one. -/
def rowOf (columns : List (ZSet (Key × Value))) (k : Key) : Option (List Value) :=
  columns.mapM fun c => lookup c k

@[simp] theorem rowOf_nil (k : Key) : rowOf [] k = some [] := rfl

@[simp] theorem rowOf_cons (c : ZSet (Key × Value)) (columns : List (ZSet (Key × Value)))
    (k : Key) : rowOf (c :: columns) k =
      (lookup c k).bind fun v => (rowOf columns k).map (v :: ·) := by
  simp only [rowOf, List.mapM_cons]
  cases lookup c k <;> cases columns.mapM fun c => lookup c k <;> rfl

theorem rowOf_append_singleton (c : ZSet (Key × Value)) (k : Key) :
    ∀ columns : List (ZSet (Key × Value)), rowOf (columns ++ [c]) k =
      (rowOf columns k).bind fun vs => (lookup c k).map (vs ++ [·])
  | [] => by
    rw [List.nil_append, rowOf_cons, rowOf_nil]
    cases lookup c k <;> rfl
  | c' :: columns => by
    rw [List.cons_append, rowOf_cons, rowOf_cons, rowOf_append_singleton c k columns]
    cases lookup c' k <;> cases rowOf columns k <;> cases lookup c k <;> rfl

/-- The loop over the further columns appends each one's value to the rows. -/
theorem foldl_joinMore_hasRows : ∀ (columns : List (ZSet (Key × Value)))
    (prefix_ : List (ZSet (Key × Value))) (more : ZSet (Key × List Value)),
    HasRows more (rowOf prefix_) → (∀ c ∈ columns, IsTable c) →
    HasRows (columns.foldl joinMore more) (rowOf (prefix_ ++ columns))
  | [], _, _, h, _ => by rwa [List.append_nil]
  | c :: columns, prefix_, more, h, hc => by
    have hstep : HasRows (joinMore more c) (rowOf (prefix_ ++ [c])) := by
      have := h.joinCore (hc c (List.mem_cons_self _ _)).hasRows fun _ vs v => vs ++ [v]
      exact ⟨this.isTable, fun k => (this.lookup_eq k).trans (rowOf_append_singleton _ _ _).symm⟩
    rw [List.foldl_cons, ← List.singleton_append, ← List.append_assoc]
    exact foldl_joinMore_hasRows columns _ _ hstep fun c' h' => hc c' (List.mem_cons_of_mem _ h')

/-- The rows of `tuples` of columns that are tables: one for each key that every column has,
its values in column order. -/
theorem tuples_hasRows (universeKeys : ZSet Key) :
    ∀ columns : List (ZSet (Key × Value)), columns ≠ [] → (∀ c ∈ columns, IsTable c) →
      HasRows (tuples universeKeys columns).rows (rowOf columns)
  | [first], _, hc => by
    have := (hc first (List.mem_singleton_self _)).hasRows.map fun _ v => [v]
    refine ⟨this.isTable, fun k => (this.lookup_eq k).trans ?_⟩
    cases h : lookup first k <;> simp [h]
  | [first, second], _, hc => by
    have := (((hc first (by simp)).hasRows.joinCore (hc second (by simp)).hasRows
      fun _ a b => (a, b)).map fun _ ab => [ab.1, ab.2])
    refine ⟨this.isTable, fun k => (this.lookup_eq k).trans ?_⟩
    cases h1 : lookup first k <;> cases h2 : lookup second k <;> simp [h1, h2]
  | first :: second :: third :: columns, _, hc => by
    have h3 : HasRows (joinThird (joinTwo first second) third) (rowOf [first, second, third]) := by
      have := ((hc first (by simp)).hasRows.joinCore (hc second (by simp)).hasRows
        fun _ a b => (a, b)).joinCore (hc third (by simp)).hasRows fun _ ab c => [ab.1, ab.2, c]
      refine ⟨this.isTable, fun k => (this.lookup_eq k).trans ?_⟩
      cases h1 : lookup first k <;> cases h2 : lookup second k <;> cases h3 : lookup third k <;>
        simp [h1, h2, h3]
    exact foldl_joinMore_hasRows columns [first, second, third] _ h3
      fun c h => hc c (by simp [h])

/-- Combining columns keeps one tuple per key in column order: for columns `c_1..c_n`
(`n ≥ 1`) that are tables, the rows of `tuples` and the rows of `columns_to_table` form a
table with a row exactly for each key that every `c_i` has, `[c_1[k], ..., c_n[k]]` (a
`Tuple` of them in `columns_to_table`); with no column, each key of the universe gets an
empty tuple. -/
theorem columns_one_tuple_per_key :
    (∀ (universeKeys : ZSet Key) (columns : List (ZSet (Key × Value))), columns ≠ [] →
      (∀ c ∈ columns, IsTable c) →
      HasRows (tuples universeKeys columns).rows (rowOf columns) ∧
      HasRows (columnsToTable universeKeys columns) fun k => (rowOf columns k).map .tuple) ∧
    ∀ universeKeys : ZSet Key,
      (tuples universeKeys []).rows = ZSet.map (fun k => (k, [])) universeKeys ∧
      columnsToTable universeKeys [] = ZSet.map (fun k => (k, .tuple [])) universeKeys :=
  ⟨fun universeKeys columns hne hc =>
    have h := tuples_hasRows universeKeys columns hne hc
    ⟨h, by exact h.map fun _ vs => Value.tuple vs⟩,
  fun universeKeys => ⟨rfl, by simp [columnsToTable, tuples, TupleCollection.rows, ZSet.map]⟩⟩

theorem columns_one_tuple_per_key_three :
    [ofList [((1 : Key), Value.int 10), (2, .int 20)], ofList [((1 : Key), Value.int 11)],
      ofList [((1 : Key), Value.int 12), (2, .int 22)]] ≠ [] ∧
    (∀ c ∈ [ofList [((1 : Key), Value.int 10), (2, .int 20)], ofList [((1 : Key), Value.int 11)],
      ofList [((1 : Key), Value.int 12), (2, .int 22)]], IsTable c) ∧
    HasRows (tuples [] [ofList [((1 : Key), Value.int 10), (2, .int 20)],
        ofList [((1 : Key), Value.int 11)], ofList [((1 : Key), Value.int 12), (2, .int 22)]]).rows
      (rowOf [ofList [((1 : Key), Value.int 10), (2, .int 20)], ofList [((1 : Key), Value.int 11)],
        ofList [((1 : Key), Value.int 12), (2, .int 22)]]) ∧
    HasRows (columnsToTable [] [ofList [((1 : Key), Value.int 10), (2, .int 20)],
        ofList [((1 : Key), Value.int 11)], ofList [((1 : Key), Value.int 12), (2, .int 22)]])
      fun k => (rowOf [ofList [((1 : Key), Value.int 10), (2, .int 20)],
        ofList [((1 : Key), Value.int 11)],
        ofList [((1 : Key), Value.int 12), (2, .int 22)]] k).map .tuple :=
  have hne : [ofList [((1 : Key), Value.int 10), (2, .int 20)], ofList [((1 : Key), Value.int 11)],
      ofList [((1 : Key), Value.int 12), (2, .int 22)]] ≠ [] := List.cons_ne_nil _ _
  have hc : ∀ c ∈ [ofList [((1 : Key), Value.int 10), (2, .int 20)],
      ofList [((1 : Key), Value.int 11)], ofList [((1 : Key), Value.int 12), (2, .int 22)]],
      IsTable c := by
    simp only [List.mem_cons, List.mem_singleton, List.not_mem_nil, or_false, forall_eq_or_imp,
      forall_eq]
    exact ⟨isTable_ofList (by decide), isTable_ofList (by decide), isTable_ofList (by decide)⟩
  ⟨hne, hc, columns_one_tuple_per_key.1 [] _ hne hc⟩

end Tuples
end Pathway
