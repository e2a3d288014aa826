import Pathway.Engine.Value
import Mathlib.Data.List.Basic

/-! `expression_table_non_deterministic`: the batch closure that evaluates the
expressions of a table over the rows of one timestamp. An expression that is not
deterministic keeps a cache of its results by key, so that a deletion re-emits what the
insertion emitted; the closure runs behind `flat_map_named_with_deletions_first`. What the
cache is for: per key, the `New` rows alternate insertion (`+1`) and deletion (`-1`); a
deletion must re-emit what the insertion it retracts emitted, and an append-only expression
must emit, for every row of a key, the value first computed for it. -/
namespace Pathway
namespace Expression

/-- The flags of an `ExpressionData` the closure reads. -/
structure ExpressionData where
  deterministic : Bool
  appendOnly : Bool
  deriving DecidableEq, Repr

/-- One call of `expression.eval` on argument rows: one result per row, a failed one as
its error message. A non-deterministic expression may answer differently at every call. -/
structure BatchEval where
  eval : List (List Value) → List (Except String Value)
  length_eval : ∀ args, (eval args).length = args.length

/-- `OldOrNew`: a saved row replayed on restart, or a new one. -/
inductive OldOrNew (α β : Type) where
  | old (a : α)
  | new (b : β)
  deriving DecidableEq, Repr

/-- The entries `((key, values), diff)` of one batch. -/
abbrev Batch := List ((Key × OldOrNew Value Value) × ℤ)

/-- The cache of one expression, `HashMap<Key, Value>`. -/
abbrev Cache := Key → Option Value

/-- The caches of all expressions, `caches[j]` for the `j`-th one. -/
abbrev Caches := ℕ → Cache

/-- `HashMap::insert`, with the value it returns read separately as `c k`. -/
def Cache.insert (c : Cache) (k : Key) (v : Value) : Cache :=
  fun k' => if k' = k then some v else c k'

/-- `HashMap::remove`, with the value it returns read separately as `c k`. -/
def Cache.erase (c : Cache) (k : Key) : Cache := fun k' => if k' = k then none else c k'

@[simp] theorem Cache.insert_apply (c : Cache) (k k' : Key) (v : Value) :
    c.insert k v k' = if k' = k then some v else c k' := rfl
@[simp] theorem Cache.erase_apply (c : Cache) (k k' : Key) :
    c.erase k k' = if k' = k then none else c k' := rfl

/-- `RowData`: a `New` entry with the arguments its column paths extract. -/
structure RowData where
  key : Key
  args : List Value
  diff : ℤ
  position : ℕ

/-- An `Old` entry primes `caches[j]` with its `j`-th saved value, for every expression
that is not deterministic; each insertion asserts the key was absent. -/
def primeCaches (k : Key) : ℕ → List ExpressionData → List Value → Caches →
    Except Error Caches
  | j, e :: es, s :: ss, cs =>
    if e.deterministic then primeCaches k (j + 1) es ss cs
    else match cs j k with
      | none => primeCaches k (j + 1) es ss (Function.update cs j ((cs j).insert k s))
      | some _ => throw (.assertion "current.is_none()")
  | _, _, _, cs => pure cs

/-- The first loop over the batch: `Old` entries prime the caches, `New` entries become
rows with their arguments. -/
def collectRows (exprs : List ExpressionData) (paths : List ColumnPath) :
    Caches → ℕ → Batch → Except Error (Caches × List RowData)
  | cs, _, [] => pure (cs, [])
  | cs, i, ((k, .old states), _) :: rest =>
    match states.asTuple with
    | some states => do
      let cs ← primeCaches k 0 exprs states cs
      collectRows exprs paths cs (i + 1) rest
    | none => throw (.assertion "saved state is a tuple")
  | cs, i, ((k, .new v), d) :: rest => do
    let args ← ColumnPath.extractAll paths k v
    let (cs, rows) ← collectRows exprs paths cs (i + 1) rest
    pure (cs, ⟨k, args, d, i⟩ :: rows)

/-- The lookup pass of one expression over the rows: `some v` where the cache answers,
`none` where the row is to be computed. An append-only expression only reads its cache;
any other expression that is not deterministic removes what it finds, which must be a
deletion. -/
def lookupRows (e : ExpressionData) : Cache → List RowData → Except Error (Cache × List (Option Value))
  | c, [] => pure (c, [])
  | c, row :: rows =>
    if e.deterministic then do
      let (c, found) ← lookupRows e c rows
      pure (c, none :: found)
    else if e.appendOnly then do
      let (c', found) ← lookupRows e c rows
      pure (c', c row.key :: found)
    else match c row.key with
      | some v =>
        if row.diff ≠ -1 then throw (.dataReported (.expectedDeletion row.key))
        else do
          let (c, found) ← lookupRows e (c.erase row.key) rows
          pure (c, some v :: found)
      | none => do
        let (c, found) ← lookupRows e c rows
        pure (c, none :: found)

/-- `slice::chunks(n)`: consecutive pieces of `n` elements, the last one possibly shorter
(`fuel` bounds the number of pieces). -/
def chunksAux {α : Type} (n : ℕ) : ℕ → List α → List (List α)
  | 0, _ | _, [] => []
  | fuel + 1, a :: l => (a :: l).take n :: chunksAux n fuel ((a :: l).drop n)

/-- `slice::chunks(n)`. -/
def chunks {α : Type} (n : ℕ) (l : List α) : List (List α) := chunksAux n l.length l

/-- `args.chunks(max_expression_batch_size).flat_map(|args| eval(args))`; `chunks(0)`
panics. -/
def evalChunks (ev : BatchEval) (n : ℕ) (args : List (List Value)) :
    Except Error (List (Except String Value)) :=
  if n = 0 then throw (.assertion "chunk size must be non-zero")
  else pure ((chunks n args).flatMap ev.eval)

/-- `Itertools::zip_eq`, which panics on lists of different lengths. -/
def zipEq {α β : Type} : List α → List β → Except Error (List (α × β))
  | [], [] => pure []
  | a :: as, b :: bs => do
    let r ← zipEq as bs
    pure ((a, b) :: r)
  | _, _ => throw (.assertion "zip_eq")

/-- `unwrap_or_log_with_trace(.., Value::Error)`: a failed result becomes `Value::Error`
and is logged. -/
def unwrapOrLog : Except String Value → Value × List DataError
  | .ok v => (v, [])
  | .error msg => (.error, [.expressionFailed msg])

/-- The insertion loop: each computed result of an expression that is not deterministic
goes into its cache, asserting the key was absent. -/
def storeResults (e : ExpressionData) : Cache → List (Key × Value) → Except Error Cache
  | c, [] => pure c
  | c, (k, v) :: rest =>
    if e.deterministic then storeResults e c rest
    else match c k with
      | none => storeResults e (c.insert k v) rest
      | some _ => throw (.assertion "current.is_none()")

/-- `results[position][i]` for the rows in order: the looked-up value, or the next
computed one. -/
def fillColumn : List (Option Value) → List Value → List Value
  | [], _ => []
  | some v :: found, rs => v :: fillColumn found rs
  | none :: found, r :: rs => r :: fillColumn found rs
  | none :: found, [] => .none :: fillColumn found []

/-- One expression over the rows of a batch: its new cache, its value for each row, and
what it logged. -/
def evaluateExpression (e : ExpressionData) (ev : BatchEval) (n : ℕ) (c : Cache)
    (rows : List RowData) : Except Error (Cache × List Value × List DataError) := do
  let (c, found) ← lookupRows e c rows
  let todo := (rows.zip found).filterMap fun p => if p.2.isNone then some p.1 else none
  let results ← evalChunks ev n (todo.map (·.args))
  let pairs ← zipEq results (todo.map (·.key))
  let values := pairs.map fun p => (p.2, (unwrapOrLog p.1).1)
  let c ← storeResults e c values
  pure (c, fillColumn found (values.map (·.2)), pairs.flatMap fun p => (unwrapOrLog p.1).2)

/-- The loop over the expressions, the `i`-th one with its cache `caches[i]`. -/
def evaluateAll (evs : ℕ → BatchEval) (n : ℕ) (rows : List RowData) :
    ℕ → List ExpressionData → Caches → Except Error (Caches × List (List Value) × List DataError)
  | _, [], cs => pure (cs, [], [])
  | i, e :: es, cs => do
    let (c, col, log) ← evaluateExpression e (evs i) n (cs i) rows
    let (cs, cols, logs) ← evaluateAll evs n rows (i + 1) es (Function.update cs i c)
    pure (cs, col :: cols, log ++ logs)

/-- The output: nothing at an `Old` entry, and at a `New` one the key of the next row with
the tuple of the expressions' values for it. -/
def assemble (cols : List (List Value)) : List RowData → ℕ → Batch → List (Option (Key × Value))
  | _, _, [] => []
  | rows, j, ((_, .old _), _) :: rest => none :: assemble cols rows j rest
  | row :: rows, j, ((_, .new _), _) :: rest =>
    some (row.key, .tuple (cols.map fun col => col.getD j .none)) :: assemble cols rows (j + 1) rest
  | [], j, ((_, .new _), _) :: rest => none :: assemble cols [] j rest

/-- The batch closure of `expression_table_non_deterministic`. -/
def evaluateBatch (exprs : List ExpressionData) (paths : List ColumnPath) (n : ℕ)
    (evs : ℕ → BatchEval) (cs : Caches) (batch : Batch) :
    Except Error (Caches × List (Option (Key × Value)) × List DataError) := do
  let (cs, rows) ← collectRows exprs paths cs 0 batch
  let (cs, cols, log) ← evaluateAll evs n rows 0 exprs cs
  pure (cs, assemble cols rows 0 batch, log)

/-- The closure over a sequence of batches, each with the evaluations its expressions
give: the caches and the output after each batch. -/
def run (exprs : List ExpressionData) (paths : List ColumnPath) (n : ℕ) :
    Caches → List ((ℕ → BatchEval) × Batch) → Except Error (List (Caches × List (Option (Key × Value))))
  | _, [] => pure []
  | cs, (evs, b) :: rest => do
    let (cs, out, _) ← evaluateBatch exprs paths n evs cs b
    let trace ← run exprs paths n cs rest
    pure ((cs, out) :: trace)

/-- The keys alive after rows that alternate, per key, insertion and deletion, starting
from `live`; `none` if they do not alternate. -/
def alternate (live : Key → Bool) : List (Key × ℤ) → Option (Key → Bool)
  | [] => some live
  | (k, d) :: rest =>
    if d = 1 ∧ live k = false then alternate (fun k' => if k' = k then true else live k') rest
    else if d = -1 ∧ live k = true then alternate (fun k' => if k' = k then false else live k') rest
    else none

/-- Checks that every deletion emits what the insertion it retracts emitted, keeping for
each live key the value its insertion emitted. -/
def retractCheck (m : Cache) : List (Key × ℤ × Value) → Option Cache
  | [] => some m
  | (k, d, v) :: rest =>
    if d = -1 then (if m k = some v then retractCheck (m.erase k) rest else none)
    else retractCheck (m.insert k v) rest

/-- Checks that every row of a key emits the value first emitted for it. -/
def firstCheck (m : Cache) : List (Key × ℤ × Value) → Option Cache
  | [] => some m
  | (k, _, v) :: rest =>
    match m k with
    | some w => if w = v then firstCheck m rest else none
    | none => firstCheck (m.insert k v) rest

theorem alternate_append (live : Key → Bool) (xs ys : List (Key × ℤ)) :
    alternate live (xs ++ ys) = (alternate live xs).bind fun l => alternate l ys := by
  induction xs generalizing live with
  | nil => rfl
  | cons x xs ih => obtain ⟨k, d⟩ := x; simp only [List.cons_append, alternate]; split_ifs <;> simp [ih]

theorem retractCheck_append (m : Cache) (xs ys : List (Key × ℤ × Value)) :
    retractCheck m (xs ++ ys) = (retractCheck m xs).bind fun m' => retractCheck m' ys := by
  induction xs generalizing m with
  | nil => rfl
  | cons x xs ih =>
    obtain ⟨k, d, v⟩ := x; simp only [List.cons_append, retractCheck]; split_ifs <;> simp [ih]

theorem firstCheck_append (m : Cache) (xs ys : List (Key × ℤ × Value)) :
    firstCheck m (xs ++ ys) = (firstCheck m xs).bind fun m' => firstCheck m' ys := by
  induction xs generalizing m with
  | nil => rfl
  | cons x xs ih =>
    obtain ⟨k, d, v⟩ := x; simp only [List.cons_append, firstCheck]; split <;> (try split_ifs) <;> simp [ih]

/-- The cache with the keys `ks` removed. -/
def Cache.eraseAll (c : Cache) (ks : List Key) : Cache := fun k => if k ∈ ks then none else c k

@[simp] theorem Cache.eraseAll_nil (c : Cache) : c.eraseAll [] = c := rfl

theorem Cache.eraseAll_cons (c : Cache) (k : Key) (ks : List Key) :
    c.eraseAll (k :: ks) = (c.erase k).eraseAll ks := by
  funext k'; by_cases h : k' = k <;> simp [eraseAll, h]

/-- The cache with the pairs `kvs` inserted in order. -/
def Cache.insertAll : Cache → List (Key × Value) → Cache
  | c, [] => c
  | c, (k, v) :: rest => Cache.insertAll (c.insert k v) rest

@[simp] theorem Cache.insertAll_isSome (k : Key) : ∀ (c : Cache) (kvs : List (Key × Value)),
    (c.insertAll kvs k).isSome ↔ k ∈ kvs.map Prod.fst ∨ (c k).isSome
  | _, [] => by simp [Cache.insertAll]
  | c, (k', v) :: rest => by
    rw [Cache.insertAll, Cache.insertAll_isSome k _ rest]
    by_cases h : k = k' <;> simp [h]

/-- The value of each row of a batch as one expression emits it. -/
def emitRows (rows : List RowData) (col : List Value) : List (Key × ℤ × Value) :=
  List.zipWith (fun r v => (r.key, r.diff, v)) rows col

section Passes
variable (e : ExpressionData)

theorem lookupRows_deterministic (he : e.deterministic = true) (c : Cache) (rows : List RowData) :
    lookupRows e c rows = .ok (c, rows.map fun _ => none) := by
  induction rows with
  | nil => rfl
  | cons r rows ih => simp [lookupRows, he, ih]

theorem lookupRows_appendOnly (he : e.deterministic = false) (ha : e.appendOnly = true)
    (c : Cache) (rows : List RowData) :
    lookupRows e c rows = .ok (c, rows.map fun r => c r.key) := by
  induction rows with
  | nil => rfl
  | cons r rows ih => simp [lookupRows, he, ha, ih]

/-- Insertions of keys absent from the cache are all to be computed. -/
theorem lookupRows_misses (he : e.deterministic = false) (ha : e.appendOnly = false)
    (c : Cache) (rows : List RowData) (hI : ∀ r ∈ rows, c r.key = none) :
    lookupRows e c rows = .ok (c, rows.map fun _ => none) := by
  induction rows with
  | nil => rfl
  | cons r rows ih =>
    simp only [List.forall_mem_cons] at hI
    simp [lookupRows, he, ha, hI.1, ih hI.2]

/-- Deletions of distinct cached keys take their values from the cache and remove them. -/
theorem lookupRows_hits (he : e.deterministic = false) (ha : e.appendOnly = false)
    (D I : List RowData) : ∀ c : Cache, (∀ r ∈ D, r.diff = -1 ∧ c r.key ≠ none) →
      (D.map (·.key)).Nodup → (∀ r ∈ I, c.eraseAll (D.map (·.key)) r.key = none) →
      lookupRows e c (D ++ I) =
        .ok (c.eraseAll (D.map (·.key)), D.map (fun r => c r.key) ++ I.map fun _ => none) := by
  induction D with
  | nil => intro c _ _ hI; simpa [Cache.eraseAll] using lookupRows_misses e he ha c I hI
  | cons r D ih =>
    intro c hD hnd hI
    simp only [List.forall_mem_cons] at hD
    simp only [List.map_cons, List.nodup_cons] at hnd
    obtain ⟨v, hv⟩ := Option.ne_none_iff_exists'.1 hD.1.2
    have hframe : ∀ r' ∈ D, (c.erase r.key) r'.key = c r'.key := fun r' hr' => by
      have hne : r'.key ≠ r.key := fun h => hnd.1 (h ▸ List.mem_map_of_mem (·.key) hr')
      simp [hne]
    rw [List.map_cons, Cache.eraseAll_cons] at hI
    have hrest := ih (c.erase r.key) (fun r' hr' => ⟨(hD.2 r' hr').1, by
      rw [hframe r' hr']; exact (hD.2 r' hr').2⟩) hnd.2 hI
    simp only [List.cons_append, lookupRows, he, ha, hv, hD.1.1, ne_eq, not_true_eq_false,
      if_false, Bool.false_eq_true, List.map_cons, Cache.eraseAll_cons, List.append_eq]
    rw [hrest, List.map_congr_left hframe]
    rfl

theorem flatten_chunksAux {α : Type} {n : ℕ} (hn : 0 < n) :
    ∀ (fuel : ℕ) (l : List α), l.length ≤ fuel → (chunksAux n fuel l).flatten = l
  | 0, [], _ | _ + 1, [], _ => rfl
  | fuel + 1, a :: l, h => by
    rw [chunksAux, List.flatten_cons, flatten_chunksAux hn fuel _ (by simp at h ⊢; omega),
      List.take_append_drop]

theorem length_flatMap_eval (ev : BatchEval) (L : List (List (List Value))) :
    (L.flatMap ev.eval).length = L.flatten.length := by
  induction L with
  | nil => rfl
  | cons a L ih => simp [ev.length_eval, ih]

/-- The values computed for the rows to be computed, a failed evaluation as
`Value::Error`. -/
def computed (ev : BatchEval) (n : ℕ) (todo : List RowData) : List Value :=
  ((chunks n (todo.map (·.args))).flatMap ev.eval).map fun r => (unwrapOrLog r).1

theorem length_computed (ev : BatchEval) {n : ℕ} (hn : 0 < n) (todo : List RowData) :
    (computed ev n todo).length = todo.length := by
  rw [computed, List.length_map, length_flatMap_eval, chunks,
    flatten_chunksAux hn _ _ le_rfl, List.length_map]

theorem zipEq_of_length {α β : Type} : ∀ (as : List α) (bs : List β), as.length = bs.length →
    zipEq as bs = .ok (as.zip bs)
  | [], [], _ => rfl
  | a :: as, b :: bs, h => by
    simp only [zipEq, zipEq_of_length as bs (by simpa using h)]; rfl

theorem storeResults_deterministic (he : e.deterministic = true) (c : Cache) :
    ∀ kvs : List (Key × Value), storeResults e c kvs = .ok c
  | [] => rfl
  | (k, v) :: rest => by simp [storeResults, he, storeResults_deterministic he c rest]

/-- Results of distinct keys absent from the cache are all stored. -/
theorem storeResults_fresh (he : e.deterministic = false) :
    ∀ (c : Cache) (kvs : List (Key × Value)), (kvs.map Prod.fst).Nodup →
      (∀ p ∈ kvs, c p.1 = none) → storeResults e c kvs = .ok (c.insertAll kvs)
  | _, [], _, _ => rfl
  | c, (k, v) :: rest, hnd, hc => by
    simp only [List.map_cons, List.nodup_cons, List.forall_mem_cons] at hnd hc
    simp only [storeResults, he, hc.1, Bool.false_eq_true, if_false, Cache.insertAll]
    refine storeResults_fresh he _ rest hnd.2 fun p hp => ?_
    have hne : p.1 ≠ k := fun h => hnd.1 (h ▸ List.mem_map_of_mem _ hp)
    simp [hne, hc.2 p hp]

theorem fillColumn_replicate : ∀ (vs : List Value), fillColumn (List.replicate vs.length none) vs = vs
  | [] => rfl
  | v :: vs => by simp [List.replicate_succ, fillColumn, fillColumn_replicate vs]

theorem fillColumn_append_some : ∀ (found rest : List (Option Value)) (vs : List Value),
    (∀ x ∈ found, x ≠ none) → fillColumn (found ++ rest) vs = found.map (·.getD .none) ++ fillColumn rest vs
  | [], _, _, _ => rfl
  | x :: found, rest, vs, h => by
    obtain ⟨v, rfl⟩ := Option.ne_none_iff_exists'.1 (h x (List.mem_cons_self _ _))
    simp [fillColumn, fillColumn_append_some found rest vs fun y hy => h y (List.mem_cons_of_mem _ hy)]

private theorem map_zip_swap {α β γ : Type} (f : α → γ) :
    ∀ (as : List α) (bs : List β), as.length = bs.length →
      (as.zip bs).map (fun p => (p.2, f p.1)) = bs.zip (as.map f)
  | [], [], _ => rfl
  | a :: as, b :: bs, h => by simp [map_zip_swap f as bs (by simpa using h)]

/-- The rows the lookup pass did not answer, in order. -/
def pending (rows : List RowData) (found : List (Option Value)) : List RowData :=
  (rows.zip found).filterMap fun p => if p.2.isNone then some p.1 else none

/-- Once the lookup pass has answered, the expression computes the rows it did not find,
stores them and fills its column. -/
theorem evaluateExpression_eq (ev : BatchEval) {n : ℕ} (hn : 0 < n) {c c₁ : Cache}
    {rows : List RowData} {found : List (Option Value)} (hl : lookupRows e c rows = .ok (c₁, found)) :
    ∃ log, evaluateExpression e ev n c rows =
      storeResults e c₁ (((pending rows found).map (·.key)).zip (computed ev n (pending rows found))) >>=
        fun c₂ => .ok (c₂, fillColumn found (computed ev n (pending rows found)), log) := by
  have hlen : ((chunks n ((pending rows found).map (·.args))).flatMap ev.eval).length =
      ((pending rows found).map (·.key)).length := by
    simpa [computed] using length_computed ev hn (pending rows found)
  have hsnd : List.map Prod.snd (((pending rows found).map (·.key)).zip
      (computed ev n (pending rows found))) = computed ev n (pending rows found) :=
    List.map_snd_zip _ _ (by simp [length_computed ev hn])
  simp only [evaluateExpression, hl, ok_bind, evalChunks, Nat.pos_iff_ne_zero.1 hn, if_false,
    pure_eq_ok]
  rw [show (rows.zip found).filterMap (fun p => if p.2.isNone then some p.1 else none) =
    pending rows found from rfl, zipEq_of_length _ _ hlen, ok_bind,
    map_zip_swap (fun r => (unwrapOrLog r).1) _ _ hlen]
  exact ⟨_, by rw [← computed, hsnd]⟩

theorem evaluateExpression_zero (ev : BatchEval) {c c₁ : Cache} {rows : List RowData}
    {found : List (Option Value)} (hl : lookupRows e c rows = .ok (c₁, found)) :
    evaluateExpression e ev 0 c rows = .error (.assertion "chunk size must be non-zero") := by
  simp [evaluateExpression, hl, evalChunks]

theorem emitRows_append (D I : List RowData) (x y : List Value) (h : x.length = D.length) :
    emitRows (D ++ I) (x ++ y) = emitRows D x ++ emitRows I y := by
  simp [emitRows, List.zipWith_append _ _ _ _ _ h.symm]

theorem pending_append (D I : List RowData) (found found' : List (Option Value))
    (hl : found.length = D.length) :
    pending (D ++ I) (found ++ found') = pending D found ++ pending I found' := by
  simp only [pending, List.zip_append hl.symm, List.filterMap_append]

/-- Rows the lookup pass did not answer at all are all computed. -/
theorem pending_misses : ∀ rows : List RowData, pending rows (List.replicate rows.length none) = rows
  | [] => rfl
  | r :: rows => by simpa [pending, List.replicate_succ] using pending_misses rows

theorem pending_hits_misses (D I : List RowData) (found : List (Option Value))
    (hf : ∀ x ∈ found, x ≠ none) (hl : found.length = D.length) :
    pending (D ++ I) (found ++ List.replicate I.length none) = I := by
  have hD : pending D found = [] :=
    List.filterMap_eq_nil_iff.2 fun p hp => by simp [hf p.2 (List.of_mem_zip hp).2]
  rw [pending_append _ _ _ _ hl, hD, pending_misses, List.nil_append]

/-- Deletions of distinct live keys re-emit, one by one, what the cache holds. -/
theorem retractCheck_deletions : ∀ (D : List RowData) (c : Cache),
    (∀ r ∈ D, r.diff = -1 ∧ c r.key ≠ none) → (D.map (·.key)).Nodup →
      retractCheck c (emitRows D (D.map fun r => (c r.key).getD .none)) =
        some (c.eraseAll (D.map (·.key)))
  | [], c, _, _ => by simp [emitRows, retractCheck, Cache.eraseAll]
  | r :: D, c, hD, hnd => by
    simp only [List.forall_mem_cons] at hD
    simp only [List.map_cons, List.nodup_cons] at hnd
    obtain ⟨v, hv⟩ := Option.ne_none_iff_exists'.1 hD.1.2
    have hframe : ∀ r' ∈ D, (c.erase r.key) r'.key = c r'.key := fun r' hr' => by
      have hne : r'.key ≠ r.key := fun h => hnd.1 (h ▸ List.mem_map_of_mem (·.key) hr')
      simp [hne]
    have ih := retractCheck_deletions D (c.erase r.key) (fun r' hr' => ⟨(hD.2 r' hr').1,
      by rw [hframe r' hr']; exact (hD.2 r' hr').2⟩) hnd.2
    rw [List.map_congr_left fun r' hr' => by rw [hframe r' hr']] at ih
    simp [emitRows, retractCheck, hD.1.1, hv, Cache.eraseAll_cons, ← ih]

/-- Insertions emit and remember their values. -/
theorem retractCheck_insertions : ∀ (I : List RowData) (vs : List Value) (m : Cache),
    (∀ r ∈ I, r.diff = 1) → vs.length = I.length →
      retractCheck m (emitRows I vs) = some (m.insertAll ((I.map (·.key)).zip vs))
  | [], [], m, _, _ => rfl
  | r :: I, v :: vs, m, hI, hl => by
    simp only [List.forall_mem_cons] at hI
    have ih := retractCheck_insertions I vs (m.insert r.key v) hI.2 (by simpa using hl)
    simp only [emitRows, List.zipWith_cons_cons, retractCheck, hI.1] at ih ⊢
    simpa [Cache.insertAll] using ih

/-- An expression that is neither deterministic nor append-only, over deletions of
distinct cached keys followed by insertions of distinct keys it does not hold: every
deletion re-emits its cached value, and the cache afterwards is what the retraction check
keeps. -/
theorem evaluateExpression_retracting (he : e.deterministic = false) (ha : e.appendOnly = false)
    (ev : BatchEval) {n : ℕ} (hn : 0 < n) (c : Cache) (D I : List RowData)
    (hD : ∀ r ∈ D, r.diff = -1 ∧ c r.key ≠ none) (hDnd : (D.map (·.key)).Nodup)
    (hI : ∀ r ∈ I, r.diff = 1 ∧ c.eraseAll (D.map (·.key)) r.key = none)
    (hInd : (I.map (·.key)).Nodup) :
    ∃ c' col log, evaluateExpression e ev n c (D ++ I) = .ok (c', col, log) ∧
      col.length = D.length + I.length ∧ retractCheck c (emitRows (D ++ I) col) = some c' ∧
      ∀ k, (c' k).isSome ↔ k ∈ I.map (·.key) ∨ (k ∉ D.map (·.key) ∧ (c k).isSome) := by
  have hl := lookupRows_hits e he ha D I c hD hDnd fun r hr => (hI r hr).2
  rw [List.map_const'] at hl
  obtain ⟨log, hev⟩ := evaluateExpression_eq e ev hn hl
  have hsome : ∀ x ∈ D.map (fun r => c r.key), x ≠ none := by simpa using fun r hr => (hD r hr).2
  have hlenv := length_computed ev hn I
  rw [pending_hits_misses D I _ hsome (by simp)] at hev
  have hstore := storeResults_fresh e he (c.eraseAll (D.map (·.key))) ((I.map (·.key)).zip (computed ev n I))
    (by rwa [List.map_fst_zip _ _ (by simp [hlenv])]) fun p hp =>
      (hI _ (List.mem_map.1 (List.of_mem_zip hp).1).choose_spec.1).2 ▸
        by rw [(List.mem_map.1 (List.of_mem_zip hp).1).choose_spec.2]
  rw [hstore, ok_bind, fillColumn_append_some _ _ _ hsome, ← hlenv, fillColumn_replicate] at hev
  refine ⟨_, _, log, hev, by simp [hlenv], ?_, fun k => ?_⟩
  · rw [emitRows_append _ _ _ _ (by simp), retractCheck_append]
    simp only [List.map_map, Function.comp_def]
    rw [retractCheck_deletions D c hD hDnd]
    exact retractCheck_insertions I _ _ (fun r hr => (hI r hr).1) hlenv
  · rw [Cache.insertAll_isSome, List.map_fst_zip _ _ (by simp [hlenv])]
    by_cases hk : k ∈ D.map (·.key) <;> simp [Cache.eraseAll, hk]

theorem pending_of_appendOnly (c : Cache) :
    ∀ rows : List RowData, pending rows (rows.map fun r => c r.key) = rows.filter fun r => (c r.key).isNone
  | [] => rfl
  | r :: rows => by
    rw [List.filter_cons, ← pending_of_appendOnly c rows]
    cases h : c r.key <;> simp [pending, h]

/-- An append-only expression emits, row by row, what its cache holds or what it computes
for the keys it does not hold, which it then remembers: the first-value check keeps the
cache the expression ends with. -/
theorem firstCheck_fillColumn (c : Cache) : ∀ (rows : List RowData) (m : Cache) (vs : List Value),
    (∀ r ∈ rows, (c r.key).isSome → m r.key = c r.key) →
    (∀ r ∈ rows.filter (fun r => (c r.key).isNone), m r.key = none) →
    ((rows.filter fun r => (c r.key).isNone).map (·.key)).Nodup →
    vs.length = (rows.filter fun r => (c r.key).isNone).length →
    firstCheck m (emitRows rows (fillColumn (rows.map fun r => c r.key) vs)) =
      some (m.insertAll (((rows.filter fun r => (c r.key).isNone).map (·.key)).zip vs))
  | [], m, vs, _, _, _, _ => by simp [emitRows, firstCheck, fillColumn, Cache.insertAll]
  | r :: rows, m, vs, hc, hm, hnd, hl => by
    simp only [List.forall_mem_cons] at hc
    cases hr : c r.key with
    | some w =>
      simp only [List.filter_cons, hr, Option.isNone_some, Bool.false_eq_true, if_false] at hm hnd hl ⊢
      have ih := firstCheck_fillColumn c rows m vs hc.2 hm hnd hl
      simp only [List.map_cons, fillColumn, emitRows, List.zipWith_cons_cons, firstCheck,
        hc.1 (by simp [hr]), hr, if_true] at ih ⊢
      exact ih
    | none =>
      simp only [List.filter_cons, hr, Option.isNone_none, if_true, List.map_cons,
        List.nodup_cons, List.forall_mem_cons] at hm hnd hl ⊢
      obtain ⟨v, vs, rfl⟩ : ∃ v vs', vs = v :: vs' := List.exists_cons_of_length_eq_add_one hl
      have hne : ∀ r' ∈ rows, (c r'.key).isSome → r'.key ≠ r.key := fun r' _ h he => by
        simp [he, hr] at h
      have ih := firstCheck_fillColumn c rows (m.insert r.key v) vs
        (fun r' hr' h => by simp [hne r' hr' h, hc.2 r' hr' h])
        (fun r' hr' => by
          have : r'.key ≠ r.key := fun he => hnd.1 (he ▸ List.mem_map_of_mem _ hr')
          simp [this, hm.2 r' hr'])
        hnd.2 (by simpa using hl)
      simp only [List.map_cons, fillColumn, emitRows, List.zipWith_cons_cons, firstCheck, hm.1,
        List.zip_cons_cons, Cache.insertAll] at ih ⊢
      exact ih

@[simp] theorem length_fillColumn : ∀ (found : List (Option Value)) (vs : List Value),
    (fillColumn found vs).length = found.length
  | [], _ => rfl
  | some _ :: found, vs | none :: found, [] => by simp [fillColumn, length_fillColumn found]
  | none :: found, _ :: vs => by simp [fillColumn, length_fillColumn found]

/-- A deterministic expression computes every row and leaves its cache alone. -/
theorem evaluateExpression_deterministic (he : e.deterministic = true) (ev : BatchEval) {n : ℕ}
    (hn : 0 < n) (c : Cache) (rows : List RowData) :
    ∃ log, evaluateExpression e ev n c rows = .ok (c, computed ev n rows, log) := by
  have hl := lookupRows_deterministic e he c rows
  rw [List.map_const'] at hl
  obtain ⟨log, hev⟩ := evaluateExpression_eq e ev hn hl
  rw [pending_misses, storeResults_deterministic e he, ok_bind, ← length_computed ev hn rows,
    fillColumn_replicate] at hev
  exact ⟨log, hev⟩

/-- An append-only expression over rows whose uncached keys are distinct computes and
remembers the rows it does not hold, and every row emits the first value of its key. -/
theorem evaluateExpression_appendOnly (he : e.deterministic = false) (ha : e.appendOnly = true)
    (ev : BatchEval) {n : ℕ} (hn : 0 < n) (c : Cache) (rows : List RowData)
    (hnd : ((rows.filter fun r => (c r.key).isNone).map (·.key)).Nodup) :
    ∃ c' col log, evaluateExpression e ev n c rows = .ok (c', col, log) ∧
      col.length = rows.length ∧ firstCheck c (emitRows rows col) = some c' ∧
      ∀ k, (c' k).isSome ↔ (c k).isSome ∨ ∃ r ∈ rows, r.key = k := by
  have hl := lookupRows_appendOnly e he ha c rows
  obtain ⟨log, hev⟩ := evaluateExpression_eq e ev hn hl
  rw [pending_of_appendOnly] at hev
  set todo := rows.filter fun r => (c r.key).isNone
  have hlenv := length_computed ev hn todo
  have hfst : ((todo.map (·.key)).zip (computed ev n todo)).map Prod.fst = todo.map (·.key) :=
    List.map_fst_zip _ _ (by simp [hlenv])
  have hstore := storeResults_fresh e he c _ (hfst ▸ hnd) fun p hp => by
    obtain ⟨r, hr, hk⟩ := List.mem_map.1 (hfst ▸ List.mem_map_of_mem Prod.fst hp)
    simpa [← hk] using (List.mem_filter.1 hr).2
  rw [hstore, ok_bind] at hev
  refine ⟨_, _, log, hev, by simp, firstCheck_fillColumn c rows c _ (fun _ _ _ => rfl)
    (fun r hr => by simpa using (List.mem_filter.1 hr).2) hnd hlenv, fun k => ?_⟩
  rw [Cache.insertAll_isSome, hfst]
  constructor
  · rintro (h | h)
    · obtain ⟨r, hr, rfl⟩ := List.mem_map.1 h
      exact .inr ⟨r, (List.mem_filter.1 hr).1, rfl⟩
    · exact .inl h
  · rintro (h | ⟨r, hr, rfl⟩)
    · exact .inr h
    · cases hc : c r.key
      · exact .inl (List.mem_map_of_mem _ (List.mem_filter.2 ⟨hr, by simp [hc]⟩))
      · simp [hc]

end Passes

end Expression
end Pathway
