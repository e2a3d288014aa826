import Pathway.Engine.Expression

/-! `expression_table_deterministic`: the batched closure that evaluates the expressions of a
table over the records of one batch. Each expression is evaluated over the argument rows in
chunks of `max_expression_batch_size`, and its `j`-th result goes to `results[j][i]`, a failed
one as `Value::Error`. When each expression answers every row by itself, a record's output is
its own row of values, whatever the chunk size and however the records are batched. -/
namespace Pathway
namespace Expression

/-- `results[j][i] = value` for the `j`-th value: `Vec` indexing, which panics past the last
row. The slot `i` is that of an expression, below the length of every row. -/
def setColumn (i : ℕ) : List (List Value) → List Value → Except Error (List (List Value))
  | results, [] => pure results
  | [], _ :: _ => throw (.assertion "index out of bounds")
  | row :: results, v :: vs => do
    let rest ← setColumn i results vs
    pure (row.set i v :: rest)

/-- The loop over the expressions: the `i`-th one, evaluated over the argument rows in chunks
of `n`, fills slot `i` of every row; what was logged, expression after expression. -/
def evaluateColumns (n : ℕ) (args : List (List Value)) :
    ℕ → List BatchEval → List (List Value) → Except Error (List (List Value) × List DataError)
  | _, [], results => pure (results, [])
  | i, ev :: evs, results => do
    let resultForExpression ← evalChunks ev n args
    let values := resultForExpression.map unwrapOrLog
    let results ← setColumn i results (values.map (·.1))
    let (results, log) ← evaluateColumns n args (i + 1) evs results
    pure (results, values.flatMap (·.2) ++ log)

/-- The batched closure of `expression_table_deterministic` over the records of a batch: each
record's key with the tuple of the expressions' values, and what was logged. -/
def expressionTableDeterministic (paths : List ColumnPath) (evs : List BatchEval) (n : ℕ)
    (data : List (Key × Value)) : Except Error (List (Key × Value) × List DataError) := do
  let args ← data.mapM fun r => ColumnPath.extractAll paths r.1 r.2
  let keys := data.map (·.1)
  let results := data.map fun _ => List.replicate evs.length Value.none
  let (results, log) ← evaluateColumns n args 0 evs results
  let out ← zipEq results keys
  pure (out.map fun p => (p.2, .tuple p.1), log)

/-- A batched evaluation that answers each row by itself: one result per row, in order, each
a function of its row. -/
def BatchEval.Rowwise (ev : BatchEval) (g : List Value → Except String Value) : Prop :=
  ∀ args, ev.eval args = args.map g

/-- The batched evaluation of an expression that answers each row by `g`. -/
def BatchEval.ofRow (g : List Value → Except String Value) : BatchEval :=
  ⟨fun args => args.map g, fun _ => List.length_map _ _⟩

theorem BatchEval.rowwise_ofRow (g : List Value → Except String Value) :
    (BatchEval.ofRow g).Rowwise g := fun _ => rfl

theorem evalChunks_rowwise {ev : BatchEval} {g : List Value → Except String Value}
    (hg : ev.Rowwise g) {n : ℕ} (hn : 0 < n) (args : List (List Value)) :
    evalChunks ev n args = .ok (args.map g) := by
  have he : ev.eval = List.map g := funext hg
  simp only [evalChunks, Nat.pos_iff_ne_zero.1 hn, if_false, pure_eq_ok, he, List.flatMap,
    ← List.map_flatten, chunks, flatten_chunksAux hn _ _ le_rfl]

theorem setColumn_map {α : Type} (i : ℕ) (F : α → List Value) (G : α → Value) :
    ∀ l : List α, setColumn i (l.map F) (l.map G) = .ok (l.map fun a => (F a).set i (G a))
  | [] => rfl
  | a :: l => by simp only [List.map_cons, setColumn, setColumn_map i F G l, ok_bind]; rfl

/-- Filling the first slot still to fill. -/
theorem set_append_replicate (p : List Value) (v w : Value) (k : ℕ) :
    (p ++ List.replicate (k + 1) w).set p.length v = (p ++ [v]) ++ List.replicate k w := by
  rw [List.set_append_right _ _ le_rfl, Nat.sub_self, List.replicate_succ, List.set_cons_zero,
    List.append_assoc, List.singleton_append]

/-- Over rows each of the values so far followed by `None`s, the loop over expressions that
answer row by row fills every row with its own values. -/
theorem evaluateColumns_rowwise {n : ℕ} (hn : 0 < n) (args : List (List Value)) :
    ∀ {evs : List BatchEval} {gs : List (List Value → Except String Value)},
      List.Forall₂ BatchEval.Rowwise evs gs → ∀ (i : ℕ) (P : List Value → List Value),
      (∀ a, (P a).length = i) →
      ∃ log, evaluateColumns n args i evs
          (args.map fun a => P a ++ List.replicate evs.length .none) =
        .ok (args.map fun a => P a ++ gs.map fun g => (unwrapOrLog (g a)).1, log)
  | [], [], .nil, _, _, _ => ⟨[], by simp [evaluateColumns]⟩
  | ev :: evs, g :: gs, .cons hg hrest, i, P, hP => by
    obtain ⟨log, ih⟩ := evaluateColumns_rowwise hn args hrest (i + 1)
      (fun a => P a ++ [(unwrapOrLog (g a)).1]) (by simp [hP])
    have hset : (args.map fun a => (P a ++ List.replicate (evs.length + 1) Value.none).set i
        (unwrapOrLog (g a)).1) =
        args.map fun a => (P a ++ [(unwrapOrLog (g a)).1]) ++ List.replicate evs.length .none :=
      List.map_congr_left fun a _ => hP a ▸ set_append_replicate _ _ _ _
    simp only [List.append_assoc, List.singleton_append] at ih hset
    refine ⟨((args.map g).map unwrapOrLog).flatMap (·.2) ++ log, ?_⟩
    simp only [evaluateColumns, evalChunks_rowwise hg hn, ok_bind, List.map_map,
      Function.comp_def, List.length_cons, setColumn_map, hset, ih, List.map_cons]
    rfl

/-- The batched closure of `expression_table_deterministic`, with a chunk size of at least one
and expressions that answer each row by itself (`g_1..g_m`), gives each record `(k, values)`
whose arguments extract to `A k values` the output `(k, Tuple([g_1(args), ..., g_m(args)]))`,
a failed result as `Value::Error`. So its output does not depend on the chunk size, and
evaluating the records in two batches, with any chunk sizes, gives the same output as in
one. -/
theorem expression_batches_rowwise (paths : List ColumnPath) (evs : List BatchEval)
    (gs : List (List Value → Except String Value)) (hev : List.Forall₂ BatchEval.Rowwise evs gs)
    (A : Key → Value → List Value) :
    (∀ (n : ℕ) (data : List (Key × Value)), 0 < n →
      (∀ r ∈ data, ColumnPath.extractAll paths r.1 r.2 = .ok (A r.1 r.2)) →
      ∃ log, expressionTableDeterministic paths evs n data = .ok (data.map fun r =>
        (r.1, .tuple (gs.map fun g => (unwrapOrLog (g (A r.1 r.2))).1)), log)) ∧
    (∀ (n n₁ n₂ : ℕ) (data₁ data₂ : List (Key × Value)), 0 < n → 0 < n₁ → 0 < n₂ →
      (∀ r ∈ data₁ ++ data₂, ColumnPath.extractAll paths r.1 r.2 = .ok (A r.1 r.2)) →
      ∃ out₁ out₂ log log₁ log₂,
        expressionTableDeterministic paths evs n (data₁ ++ data₂) = .ok (out₁ ++ out₂, log) ∧
        expressionTableDeterministic paths evs n₁ data₁ = .ok (out₁, log₁) ∧
        expressionTableDeterministic paths evs n₂ data₂ = .ok (out₂, log₂)) := by
  have hrows : ∀ (n : ℕ) (data : List (Key × Value)), 0 < n →
      (∀ r ∈ data, ColumnPath.extractAll paths r.1 r.2 = .ok (A r.1 r.2)) →
      ∃ log, expressionTableDeterministic paths evs n data = .ok (data.map fun r =>
        (r.1, .tuple (gs.map fun g => (unwrapOrLog (g (A r.1 r.2))).1)), log) := by
    intro n data hn hA
    obtain ⟨log, hcols⟩ := evaluateColumns_rowwise hn (data.map fun r => A r.1 r.2) hev 0
      (fun _ => []) fun _ => rfl
    simp only [List.nil_append, List.map_map, Function.comp_def] at hcols
    refine ⟨log, ?_⟩
    simp only [expressionTableDeterministic, mapM_eq_ok _ data hA, ok_bind, hcols]
    rw [zipEq_of_length _ _ (by simp), ok_bind, List.zip_map', List.map_map]
    rfl
  refine ⟨hrows, fun n n₁ n₂ data₁ data₂ hn hn₁ hn₂ hA => ?_⟩
  obtain ⟨log, h⟩ := hrows n _ hn hA
  obtain ⟨log₁, h₁⟩ := hrows n₁ data₁ hn₁ fun r hr => hA r (List.mem_append_left _ hr)
  obtain ⟨log₂, h₂⟩ := hrows n₂ data₂ hn₂ fun r hr => hA r (List.mem_append_right _ hr)
  exact ⟨_, _, log, log₁, log₂, by rw [h, List.map_append], h₁, h₂⟩

/-- An expression answering a row's first argument, failing on a row without one. -/
def firstArg : List Value → Except String Value
  | v :: _ => .ok v
  | [] => .error "no argument"

theorem expression_batches_rowwise_firstArg :
    List.Forall₂ BatchEval.Rowwise [BatchEval.ofRow firstArg] [firstArg] ∧
    (∀ (n : ℕ) (data : List (Key × Value)), 0 < n →
      (∀ r ∈ data, ColumnPath.extractAll [.whole] r.1 r.2 = .ok [r.2]) →
      ∃ log, expressionTableDeterministic [.whole] [BatchEval.ofRow firstArg] n data =
        .ok (data.map fun r => (r.1, .tuple ([firstArg].map fun g => (unwrapOrLog (g [r.2])).1)),
          log)) ∧
    (∀ (n n₁ n₂ : ℕ) (data₁ data₂ : List (Key × Value)), 0 < n → 0 < n₁ → 0 < n₂ →
      (∀ r ∈ data₁ ++ data₂, ColumnPath.extractAll [.whole] r.1 r.2 = .ok [r.2]) →
      ∃ out₁ out₂ log log₁ log₂,
        expressionTableDeterministic [.whole] [BatchEval.ofRow firstArg] n (data₁ ++ data₂) =
          .ok (out₁ ++ out₂, log) ∧
        expressionTableDeterministic [.whole] [BatchEval.ofRow firstArg] n₁ data₁ =
          .ok (out₁, log₁) ∧
        expressionTableDeterministic [.whole] [BatchEval.ofRow firstArg] n₂ data₂ =
          .ok (out₂, log₂)) :=
  have hev : List.Forall₂ BatchEval.Rowwise [BatchEval.ofRow firstArg] [firstArg] :=
    .cons (BatchEval.rowwise_ofRow firstArg) .nil
  ⟨hev, expression_batches_rowwise [.whole] _ _ hev fun _ v => [v]⟩

end Expression
end Pathway
