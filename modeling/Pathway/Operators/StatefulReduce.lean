import Pathway.Operators.Join

/-! The reducers of `group_by_table` that keep a state through time (`StatefulReducer`,
`LatestReducer`, `EarliestReducer`) and `deduplicate`, by the logic each of them gives
`maybe_persisted_stateful_reduce`. The operator that calls the logic
(`stateful_reduce_named`) is not in the source; its logic,
`FnMut(Option<&V2>, Vec<(V, R)>) -> Option<V2>`, takes a key's state and the key's updates at
one time and gives the key's new state, so a key's state over a run is the logic folded over
the key's batches in time order (`runKey`). Persistence is off. A panic is `Except.error`,
and what a logic logs is returned beside the new state. The Python `combine` of a stateful
reducer and the `combine_fn` of `deduplicate` are parameters. -/
namespace Pathway
namespace StatefulReduce

/-- A logic of `stateful_reduce`: a key's state and its updates at one time give its new
state, with the errors logged. -/
abbrev Logic (V V2 : Type) := Option V2 → List (V × ℤ) → Except Error (Option V2 × List DataError)

/-- A key's state after its batches, in time order, with what the logic logged. -/
def runKey {V V2 : Type} (logic : Logic V V2) :
    Option V2 → List (List (V × ℤ)) → Except Error (Option V2 × List DataError)
  | s, [] => pure (s, [])
  | s, b :: bs => do
    let r ← logic s b
    let rs ← runKey logic r.1 bs
    pure (rs.1, r.2 ++ rs.2)

section Run
variable {V V2 : Type} {logic : Logic V V2}

@[simp] theorem runKey_nil (s : Option V2) : runKey logic s [] = .ok (s, []) := rfl

theorem runKey_cons_of_ok {s : Option V2} {b : List (V × ℤ)} {r : Option V2 × List DataError}
    (h : logic s b = .ok r) (bs : List (List (V × ℤ))) :
    runKey logic s (b :: bs) = (fun rs => (rs.1, r.2 ++ rs.2)) <$> runKey logic r.1 bs := by
  rw [runKey, h, ok_bind]
  cases runKey logic r.1 bs <;> rfl

theorem runKey_cons_of_error {s : Option V2} {b : List (V × ℤ)} {e : Error}
    (h : logic s b = .error e) (bs : List (List (V × ℤ))) : runKey logic s (b :: bs) = .error e := by
  rw [runKey, h, error_bind]

/-- A state the logic keeps on every batch, logging nothing, is kept by every run. -/
theorem runKey_of_fixed {s : Option V2} (h : ∀ b, logic s b = .ok (s, [])) :
    ∀ bs, runKey logic s bs = .ok (s, [])
  | [] => rfl
  | b :: bs => by rw [runKey_cons_of_ok (h b), runKey_of_fixed h bs]; rfl

/-- A run whose every step succeeds succeeds. -/
theorem runKey_exists_ok (h : ∀ s b, ∃ r, logic s b = .ok r) :
    ∀ s bs, ∃ r, runKey logic s bs = .ok r
  | _, [] => ⟨_, rfl⟩
  | s, b :: bs => by
    obtain ⟨r, hr⟩ := h s b
    obtain ⟨rs, hrs⟩ := runKey_exists_ok h r.1 bs
    exact ⟨_, by rw [runKey_cons_of_ok hr, hrs]; rfl⟩

/-- A run over two lists of batches: the second from the state the first ends in. -/
theorem runKey_append_of_ok {s : Option V2} {bs : List (List (V × ℤ))}
    {r : Option V2 × List DataError} (h : runKey logic s bs = .ok r) (cs : List (List (V × ℤ))) :
    runKey logic s (bs ++ cs) = (fun rs => (rs.1, r.2 ++ rs.2)) <$> runKey logic r.1 cs := by
  induction bs generalizing s r with
  | nil => cases h; simp only [List.nil_append]; cases runKey logic s cs <;> rfl
  | cons b bs ih =>
    obtain ⟨r₁, hr₁, hrest⟩ := bind_eq_ok.1 h
    obtain ⟨r₂, hr₂, hr⟩ := bind_eq_ok.1 hrest
    injection hr with hr
    subst hr
    rw [List.cons_append, runKey_cons_of_ok hr₁, ih hr₂]
    cases runKey logic r₂.1 cs <;> simp [List.append_assoc]

end Run

/-- A stateful `combine` (`StatefulReducer::combine`, the `combine_fn` of `deduplicate`): the
new state from the state and the batch's rows, each its values with its count. -/
abbrev CombineFn := Option Value → List (List Value × ℤ) → Except DataError (Option Value)

/-- The logic of `StatefulReducer::reduce`: `Value::Error` once the state or a row of the
batch holds it; else `combine`, with `Value::Error` where it fails, which is logged. -/
def statefulReducerLogic (combine : CombineFn) : Logic (List Value) Value := fun state values =>
  if state = some .error ∨ values.any (fun p => p.1.contains .error) then pure (some .error, [])
  else match combine state values with
    | .ok s => pure (s, [])
    | .error e => pure (some .error, [e])

/-- The logic `deduplicate` gives `maybe_persisted_stateful_reduce`: `combine_fn`'s new
state; where it fails, the error is logged and the state kept. -/
def deduplicateLogic (combineFn : CombineFn) : Logic (List Value) Value := fun state values =>
  match combineFn state values with
  | .ok newState => pure (newState, [])
  | .error error => pure (state, [error])

/-- `deduplicate`'s `flat_map` on a row: none, logging `ErrorInDeduplicate`, when a grouping
value is `Value::Error`; else the row's values in the reduced columns, under the key
`Key::for_values` of its grouping values. -/
def withNewKeysRow (h : Join.KeyHash) (groupingPaths reducedPaths : List ColumnPath) (r : Row) :
    Except Error (Option (Key × List Value) × List DataError) := do
  let newKeyParts ← ColumnPath.extractAll groupingPaths r.1 r.2
  if newKeyParts.contains .error then pure (none, [.errorInDeduplicate])
  else do
    let newValues ← ColumnPath.extractAll reducedPaths r.1 r.2
    pure (some (h.forValues newKeyParts, newValues), [])

/-- `with_new_keys` of `deduplicate`: the rows keyed for the reduce, with what was logged. -/
def withNewKeys (h : Join.KeyHash) (groupingPaths reducedPaths : List ColumnPath) :
    ZSet Row → Except Error (ZSet (Key × List Value) × List DataError) :=
  ZSet.flatMapLog (withNewKeysRow h groupingPaths reducedPaths)

/-- A `combine` that keeps the number of rows of the last batch. -/
def rowCount : CombineFn := fun _ b => .ok (some (.int b.length))

section Combine
variable (combine : CombineFn)

/-- A batch with a row holding `Value::Error`. -/
def HasErrorRow (b : List (List Value × ℤ)) : Prop := ∃ p ∈ b, Value.error ∈ p.1

theorem statefulReducerLogic_of_error (s : Option Value) {b : List (List Value × ℤ)}
    (h : s = some .error ∨ HasErrorRow b) : statefulReducerLogic combine s b = .ok (some .error, []) := by
  refine if_pos (h.imp_right fun ⟨p, hp, he⟩ => List.any_eq_true.2 ⟨p, hp, ?_⟩)
  simpa using he

theorem statefulReducerLogic_exists_ok (s : Option Value) (b : List (List Value × ℤ)) :
    ∃ r, statefulReducerLogic combine s b = .ok r := by
  unfold statefulReducerLogic
  split
  · exact ⟨_, rfl⟩
  · cases combine s b <;> exact ⟨_, rfl⟩

/-- What a step of `deduplicate` can do: keep the state, or take what `combine_fn`
returned. -/
theorem deduplicateLogic_cases {s : Option Value} {b : List (List Value × ℤ)}
    {r : Option Value × List DataError} (h : deduplicateLogic combine s b = .ok r) :
    r.1 = s ∨ combine s b = .ok r.1 := by
  unfold deduplicateLogic at h
  cases hc : combine s b <;> rw [hc] at h <;> cases h
  · exact .inl rfl
  · exact .inr rfl

/-- Under `StatefulReducer`, a key whose state is `Value::Error`, or that receives a row
holding `Value::Error`, keeps `Value::Error` as its state from then on, whatever comes
later. -/
theorem stateful_reducer_error_sticky (s : Option Value) (bs : List (List (List Value × ℤ)))
    (h : s = some .error ∨ ∃ b ∈ bs, HasErrorRow b) :
    ∃ log, runKey (statefulReducerLogic combine) s bs = .ok (some .error, log) := by
  induction bs generalizing s with
  | nil =>
    obtain rfl | ⟨_, hb, -⟩ := h
    · exact ⟨[], rfl⟩
    · cases hb
  | cons b bs ih =>
    by_cases hb : s = some .error ∨ HasErrorRow b
    · refine ⟨[], ?_⟩
      rw [runKey_cons_of_ok (statefulReducerLogic_of_error combine s hb),
        runKey_of_fixed (fun c => statefulReducerLogic_of_error combine _ (.inl rfl)) bs]
      rfl
    · have hbs : ∃ c ∈ bs, HasErrorRow c := by
        obtain h | ⟨c, hc, he⟩ := h
        · exact absurd (.inl h) hb
        · rcases List.mem_cons.1 hc with rfl | hc
          · exact absurd (.inr he) hb
          · exact ⟨c, hc, he⟩
      obtain ⟨r, hr⟩ := statefulReducerLogic_exists_ok combine s b
      obtain ⟨log, hlog⟩ := ih r.1 (.inr hbs)
      exact ⟨r.2 ++ log, by rw [runKey_cons_of_ok hr, hlog]; rfl⟩

theorem stateful_reducer_error_row_sticky :
    (none = some Value.error ∨
      ∃ b ∈ [[([Value.int 1], (1 : ℤ))], [([.error], 1)], [([.int 2], 1)]], HasErrorRow b) ∧
      ∃ log, runKey (statefulReducerLogic rowCount) none
        [[([Value.int 1], (1 : ℤ))], [([.error], 1)], [([.int 2], 1)]] = .ok (some .error, log) :=
  have h : none = some Value.error ∨
      ∃ b ∈ [[([Value.int 1], (1 : ℤ))], [([.error], 1)], [([.int 2], 1)]], HasErrorRow b :=
    .inr ⟨[([.error], 1)], by simp, _, List.mem_singleton_self _, List.mem_singleton_self _⟩
  ⟨h, stateful_reducer_error_sticky rowCount none _ h⟩

/-- A `deduplicate` key never loses its state to a failing `combine_fn`, and never gets one
the function did not return: over any run, its state is the initial one, or the one
`combine_fn` returned on a batch of the run from the state the run had reached before that
batch. -/
theorem deduplicate_state_from_combine (s : Option Value) (bs : List (List (List Value × ℤ))) :
    ∃ r, runKey (deduplicateLogic combine) s bs = .ok r ∧
      (r.1 = s ∨ ∃ pre b post r₀, bs = pre ++ b :: post ∧
        runKey (deduplicateLogic combine) s pre = .ok r₀ ∧ combine r₀.1 b = .ok r.1) := by
  induction bs generalizing s with
  | nil => exact ⟨_, rfl, .inl rfl⟩
  | cons b bs ih =>
    obtain ⟨r₁, hr₁⟩ : ∃ r, deduplicateLogic combine s b = .ok r := by
      unfold deduplicateLogic; cases combine s b <;> exact ⟨_, rfl⟩
    obtain ⟨r, hr, hfrom⟩ := ih r₁.1
    refine ⟨_, by rw [runKey_cons_of_ok hr₁, hr]; rfl, ?_⟩
    rcases hfrom with hs | ⟨pre, c, post, r₀, rfl, hpre, hc⟩
    · rcases deduplicateLogic_cases combine hr₁ with h₁ | h₁
      · exact .inl (hs.trans h₁)
      · exact .inr ⟨[], b, bs, (s, []), rfl, rfl, hs ▸ h₁⟩
    · refine .inr ⟨b :: pre, c, post, (r₀.1, r₁.2 ++ r₀.2), rfl, ?_, hc⟩
      rw [runKey_cons_of_ok hr₁, hpre]
      rfl

/-- Where no row holds `Value::Error` and `combine` always succeeds without giving
`Value::Error`, `StatefulReducer` and `deduplicate` run alike: they differ only in how they
treat errors. -/
theorem stateful_reducer_agrees_with_deduplicate
    (hcomb : ∀ s b, ∃ s', combine s b = .ok s' ∧ s' ≠ some .error)
    (s : Option Value) (hs : s ≠ some .error) (bs : List (List (List Value × ℤ)))
    (hbs : ∀ b ∈ bs, ¬HasErrorRow b) :
    runKey (statefulReducerLogic combine) s bs = runKey (deduplicateLogic combine) s bs := by
  induction bs generalizing s with
  | nil => rfl
  | cons b bs ih =>
    obtain ⟨s', hs', hne⟩ := hcomb s b
    have hb : ¬HasErrorRow b := hbs b (List.mem_cons_self _ _)
    have hstep : statefulReducerLogic combine s b = .ok (s', []) := by
      rw [statefulReducerLogic, if_neg, hs']
      · rfl
      · rintro (h | h)
        · exact hs h
        · obtain ⟨p, hp, he⟩ := List.any_eq_true.1 h
          exact hb ⟨p, hp, by simpa using he⟩
    have hdstep : deduplicateLogic combine s b = .ok (s', []) := by
      rw [deduplicateLogic, hs']
      rfl
    rw [runKey_cons_of_ok hstep, runKey_cons_of_ok hdstep,
      ih s' hne fun c hc => hbs c (List.mem_cons_of_mem _ hc)]

theorem stateful_reducer_agrees_on_row_counts :
    (∀ s b, ∃ s', rowCount s b = .ok s' ∧ s' ≠ some .error) ∧ (none : Option Value) ≠ some .error ∧
      (∀ b ∈ [[([Value.int 1], (1 : ℤ))], [([.int 2], 2)]], ¬HasErrorRow b) ∧
      runKey (statefulReducerLogic rowCount) none [[([Value.int 1], (1 : ℤ))], [([.int 2], 2)]] =
        runKey (deduplicateLogic rowCount) none [[([Value.int 1], (1 : ℤ))], [([.int 2], 2)]] :=
  have hcomb : ∀ s b, ∃ s', rowCount s b = .ok s' ∧ s' ≠ some .error :=
    fun _ _ => ⟨_, rfl, by simp⟩
  have hbs : ∀ b ∈ [[([Value.int 1], (1 : ℤ))], [([.int 2], 2)]], ¬HasErrorRow b := by
    simp [HasErrorRow]
  ⟨hcomb, by simp, hbs, stateful_reducer_agrees_with_deduplicate rowCount hcomb none (by simp) _ hbs⟩

end Combine

/-- `Iterator::max_by_key` or `min_by_key` over the source keys (`Key` compares as its
`u128`): the first row, replaced by each later one that `replace` prefers. -/
def selectByKey (replace : ℕ → ℕ → Bool) : List (Key × Value) → Option (Key × Value)
  | [] => none
  | p :: ps => some (ps.foldl (fun m q => if replace m.1.val.toNat q.1.val.toNat then q else m) p)

/-- `Iterator::max_by_key`: the last of the rows with the largest key. -/
def maxByKey : List (Key × Value) → Option (Key × Value) := selectByKey fun m q => m ≤ q

/-- `Iterator::min_by_key`: the first of the rows with the smallest key. -/
def minByKey : List (Key × Value) → Option (Key × Value) := selectByKey fun m q => q < m

/-- `exactly_one().unwrap()`: the one value of a row. -/
def exactlyOne : List Value → Except Error Value
  | [v] => pure v
  | _ => throw (.assertion "called Result::unwrap() on an Err value")

/-- The map `LatestReducer` and `EarliestReducer` make of a row of a batch: its source key
with its one value; a deletion fails the assertion `what`. -/
def keyedValue (what : String) (e : (Key × List Value) × ℤ) : Except Error (Key × Value) :=
  if 0 < e.2 then (e.1.1, ·) <$> exactlyOne e.1.2 else throw (.assertion what)

/-- The value of the row `select` picks, which is `expect`ed to exist. -/
def selectedValue (what : String) (select : List (Key × Value) → Option (Key × Value))
    (values : List ((Key × List Value) × ℤ)) : Except Error Value := do
  let rows ← values.mapM (keyedValue what)
  match select rows with
  | some (_, v) => pure v
  | none => throw (.assertion "input values shouldn\x27t be empty")

/-- The logic of `LatestReducer::reduce`: the value of the batch's row with the largest
source key. -/
def latestReducerLogic : Logic (Key × List Value) Value := fun _state values => do
  let v ← selectedValue "deletion encountered in latest reducer" maxByKey values
  pure (some v, [])

/-- The logic of `EarliestReducer::reduce`: the state, once there is one; else the value of
the batch's row with the smallest source key. -/
def earliestReducerLogic : Logic (Key × List Value) Value := fun state values =>
  if state.isSome then pure (state, [])
  else do
    let v ← selectedValue "deletion encountered in earliest reducer" minByKey values
    pure (some v, [])

section Select

/-- What `selectByKey` picks is a row of the list, preferred by `R` to every row, where `R`
is a preorder that `replace` decides between the current row and the next. -/
theorem selectByKey_spec {replace : ℕ → ℕ → Bool} {R : ℕ → ℕ → Prop}
    (hrefl : ∀ a, R a a) (htrans : ∀ a b c, R a b → R b c → R a c)
    (hrep : ∀ m q, if replace m q then R m q else R q m) :
    ∀ {l : List (Key × Value)} {p : Key × Value}, selectByKey replace l = some p →
      p ∈ l ∧ ∀ q ∈ l, R q.1.val.toNat p.1.val.toNat := by
  let pick := fun m q : Key × Value => if replace m.1.val.toNat q.1.val.toNat then q else m
  have hpick : ∀ m q, (pick m q = m ∨ pick m q = q) ∧
      R m.1.val.toNat (pick m q).1.val.toNat ∧ R q.1.val.toNat (pick m q).1.val.toNat := by
    intro m q
    have h := hrep m.1.val.toNat q.1.val.toNat
    by_cases hr : replace m.1.val.toNat q.1.val.toNat
    · rw [if_pos hr] at h
      rw [show pick m q = q from if_pos hr]
      exact ⟨.inr rfl, h, hrefl _⟩
    · rw [if_neg hr] at h
      rw [show pick m q = m from if_neg hr]
      exact ⟨.inl rfl, hrefl _, h⟩
  have hfold : ∀ (ps : List (Key × Value)) (m : Key × Value), ps.foldl pick m ∈ m :: ps ∧
      ∀ q ∈ m :: ps, R q.1.val.toNat (ps.foldl pick m).1.val.toNat := by
    intro ps
    induction ps with
    | nil => exact fun m => ⟨List.mem_singleton_self _, fun q hq => List.mem_singleton.1 hq ▸ hrefl _⟩
    | cons x ps ih =>
      intro m
      obtain ⟨hmem, hbound⟩ := ih (pick m x)
      obtain ⟨hmx, hm, hx⟩ := hpick m x
      have hbest := hbound _ (List.mem_cons_self _ _)
      refine ⟨?_, fun q hq => ?_⟩
      · rcases List.mem_cons.1 hmem with h | h
        · rcases hmx with h' | h' <;> rw [List.foldl_cons, h, h'] <;> simp
        · exact List.mem_cons_of_mem _ (List.mem_cons_of_mem _ h)
      · rcases List.mem_cons.1 hq with rfl | hq
        · exact htrans _ _ _ hm hbest
        rcases List.mem_cons.1 hq with rfl | hq
        · exact htrans _ _ _ hx hbest
        · exact hbound q (List.mem_cons_of_mem _ hq)
  intro l p h
  cases l with
  | nil => cases h
  | cons m ps => cases h; exact hfold ps m

theorem maxByKey_spec {l : List (Key × Value)} {p : Key × Value} (h : maxByKey l = some p) :
    p ∈ l ∧ ∀ q ∈ l, q.1.val.toNat ≤ p.1.val.toNat :=
  selectByKey_spec (R := (· ≤ ·)) le_refl (fun _ _ _ => le_trans)
    (fun m q => by simp only [decide_eq_true_eq]; split_ifs <;> omega) h

theorem minByKey_spec {l : List (Key × Value)} {p : Key × Value} (h : minByKey l = some p) :
    p ∈ l ∧ ∀ q ∈ l, p.1.val.toNat ≤ q.1.val.toNat :=
  selectByKey_spec (R := fun a b => b ≤ a) le_refl (fun _ _ _ h₁ h₂ => le_trans h₂ h₁)
    (fun m q => by simp only [decide_eq_true_eq]; split_ifs <;> omega) h

theorem selectByKey_isSome {replace : ℕ → ℕ → Bool} {l : List (Key × Value)} (h : l ≠ []) :
    ∃ p, selectByKey replace l = some p := by
  cases l with
  | nil => exact absurd rfl h
  | cons m ps => exact ⟨_, rfl⟩

end Select

/-- A batch `LatestReducer` and `EarliestReducer` accept: not empty, and every row an
insertion of one value. -/
def Insertions (b : List ((Key × List Value) × ℤ)) : Prop :=
  b ≠ [] ∧ ∀ e ∈ b, 0 < e.2 ∧ e.1.2.length = 1

/-- On a batch of insertions, the value a `select` like `selectByKey` picks is that of one of
its rows, with a key `R` prefers to every row's. -/
theorem selectedValue_of_insertions (what : String)
    {select : List (Key × Value) → Option (Key × Value)} {R : ℕ → ℕ → Prop}
    (hsel : ∀ {l : List (Key × Value)} {p : Key × Value},
      select l = some p → p ∈ l ∧ ∀ q ∈ l, R q.1.val.toNat p.1.val.toNat)
    (hsome : ∀ {l : List (Key × Value)}, l ≠ [] → ∃ p, select l = some p)
    {b : List ((Key × List Value) × ℤ)} (hb : Insertions b) :
    ∃ k v d, selectedValue what select b = .ok v ∧ ((k, [v]), d) ∈ b ∧
      ∀ e ∈ b, R e.1.1.val.toNat k.val.toNat := by
  let rowOf : (Key × List Value) × ℤ → Key × Value := fun e => (e.1.1, e.1.2.headD .none)
  have hrows : b.mapM (keyedValue what) = .ok (b.map rowOf) := mapM_eq_ok rowOf b fun e he => by
    obtain ⟨hpos, hlen⟩ := hb.2 e he
    obtain ⟨⟨k, vs⟩, d⟩ := e
    obtain ⟨v, rfl⟩ := List.length_eq_one.1 hlen
    simp [keyedValue, hpos, exactlyOne, rowOf]
  obtain ⟨p, hp⟩ := hsome (l := b.map rowOf) (by simpa using hb.1)
  obtain ⟨hpmem, hpbest⟩ := hsel hp
  obtain ⟨e, he, rfl⟩ := List.mem_map.1 hpmem
  obtain ⟨v, hv⟩ := List.length_eq_one.1 (hb.2 e he).2
  refine ⟨e.1.1, v, e.2, by rw [selectedValue, hrows, ok_bind, hp]; simp [rowOf, hv],
    by rw [← hv]; exact he, fun e' he' => hpbest _ (List.mem_map_of_mem rowOf he')⟩


theorem latestReducerLogic_of_insertions (s : Option Value) {b : List ((Key × List Value) × ℤ)}
    (hb : Insertions b) : ∃ k v d, latestReducerLogic s b = .ok (some v, []) ∧
      ((k, [v]), d) ∈ b ∧ ∀ e ∈ b, e.1.1.val.toNat ≤ k.val.toNat := by
  obtain ⟨k, v, d, hv, hmem, hbound⟩ := selectedValue_of_insertions
    "deletion encountered in latest reducer" maxByKey_spec selectByKey_isSome hb
  exact ⟨k, v, d, by rw [latestReducerLogic, hv]; rfl, hmem, hbound⟩

theorem latestReducerLogic_of_deletion (s : Option Value) {b : List ((Key × List Value) × ℤ)}
    (h : ∃ e ∈ b, e.2 ≤ 0) : ∃ err, latestReducerLogic s b = .error err := by
  obtain ⟨e, he, hd⟩ := h
  obtain ⟨err, herr⟩ := mapM_exists_error (f := keyedValue "deletion encountered in latest reducer")
    ⟨e, he, _, if_neg (not_lt.2 hd)⟩
  exact ⟨err, by rw [latestReducerLogic, selectedValue, herr, error_bind, error_bind]⟩

/-- Under `LatestReducer`, a key's state after batches of insertions is the value of the row
of the last batch with the largest source key, the last such row, whatever came before. -/
theorem latest_reducer_last_batch (s : Option Value) (bs : List (List ((Key × List Value) × ℤ)))
    (b : List ((Key × List Value) × ℤ)) (hbs : ∀ c ∈ bs, Insertions c) (hb : Insertions b) :
    ∃ k v d, runKey latestReducerLogic s (bs ++ [b]) = .ok (some v, []) ∧ ((k, [v]), d) ∈ b ∧
      ∀ e ∈ b, e.1.1.val.toNat ≤ k.val.toNat := by
  have hrun : ∀ s, ∃ s', runKey latestReducerLogic s bs = .ok (s', []) := by
    induction bs with
    | nil => exact fun s => ⟨s, rfl⟩
    | cons c bs ih =>
      intro s
      obtain ⟨-, v, -, hv, -⟩ := latestReducerLogic_of_insertions s (hbs c (List.mem_cons_self _ _))
      obtain ⟨s', hs'⟩ := ih (fun c' hc' => hbs c' (List.mem_cons_of_mem _ hc')) (some v)
      exact ⟨s', by rw [runKey_cons_of_ok hv, hs']; rfl⟩
  obtain ⟨s', hs'⟩ := hrun s
  obtain ⟨k, v, d, hv, hmem, hbound⟩ := latestReducerLogic_of_insertions s' hb
  exact ⟨k, v, d, by rw [runKey_append_of_ok hs', runKey_cons_of_ok hv]; rfl, hmem, hbound⟩

theorem latest_reducer_last_of_three :
    (∀ c ∈ [[(((1 : Key), [Value.int 5]), (1 : ℤ))]], Insertions c) ∧
      Insertions [(((2 : Key), [Value.int 6]), (1 : ℤ)), ((3, [.int 7]), 1)] ∧
      ∃ k v d, runKey latestReducerLogic none
        ([[(((1 : Key), [Value.int 5]), (1 : ℤ))]] ++ [[((2, [.int 6]), 1), ((3, [.int 7]), 1)]]) =
          .ok (some v, []) ∧ ((k, [v]), d) ∈ [(((2 : Key), [Value.int 6]), (1 : ℤ)), ((3, [.int 7]), 1)] ∧
        ∀ e ∈ [(((2 : Key), [Value.int 6]), (1 : ℤ)), ((3, [.int 7]), 1)],
          e.1.1.val.toNat ≤ k.val.toNat :=
  have h₁ : ∀ c ∈ [[(((1 : Key), [Value.int 5]), (1 : ℤ))]], Insertions c := by
    simp only [List.mem_singleton, forall_eq]; exact ⟨List.cons_ne_nil _ _, by decide⟩
  have h₂ : Insertions [(((2 : Key), [Value.int 6]), (1 : ℤ)), ((3, [.int 7]), 1)] :=
    ⟨List.cons_ne_nil _ _, by decide⟩
  ⟨h₁, h₂, latest_reducer_last_batch none _ _ h₁ h₂⟩

/-- Under `LatestReducer`, a deletion in any batch of a key stops the worker. -/
theorem runKey_latestReducerLogic_error_of_deletion (s : Option Value)
    (bs : List (List ((Key × List Value) × ℤ))) (h : ∃ b ∈ bs, ∃ e ∈ b, e.2 ≤ 0) :
    ∃ err, runKey latestReducerLogic s bs = .error err := by
  induction bs generalizing s with
  | nil => obtain ⟨_, hb, -⟩ := h; cases hb
  | cons c bs ih =>
    by_cases hc : ∃ e ∈ c, e.2 ≤ 0
    · obtain ⟨err, herr⟩ := latestReducerLogic_of_deletion s hc
      exact ⟨err, runKey_cons_of_error herr bs⟩
    · obtain ⟨b, hb, hdel⟩ := h
      rcases List.mem_cons.1 hb with rfl | hb
      · exact absurd hdel hc
      · cases hstep : latestReducerLogic s c with
        | error err => exact ⟨err, runKey_cons_of_error hstep bs⟩
        | ok r =>
          obtain ⟨err, herr⟩ := ih r.1 ⟨b, hb, hdel⟩
          exact ⟨err, by rw [runKey_cons_of_ok hstep, herr]; rfl⟩

/-- Under `EarliestReducer`, a key's state is fixed by its first batch: after a first batch
of insertions it is the value of the row with the smallest source key, the first such row,
and the later batches, deletions included, are never looked at. -/
theorem earliest_reducer_first_batch (b : List ((Key × List Value) × ℤ))
    (bs : List (List ((Key × List Value) × ℤ))) (hb : Insertions b) :
    ∃ k v d, runKey earliestReducerLogic none (b :: bs) = .ok (some v, []) ∧ ((k, [v]), d) ∈ b ∧
      ∀ e ∈ b, k.val.toNat ≤ e.1.1.val.toNat := by
  obtain ⟨k, v, d, hv, hmem, hbound⟩ := selectedValue_of_insertions
    "deletion encountered in earliest reducer" (R := fun a b => b ≤ a) minByKey_spec
    selectByKey_isSome hb
  have hstep : earliestReducerLogic none b = .ok (some v, []) := by
    rw [earliestReducerLogic, if_neg (by simp), hv]; rfl
  refine ⟨k, v, d, ?_, hmem, hbound⟩
  rw [runKey_cons_of_ok hstep, runKey_of_fixed (fun _ => if_pos rfl) bs]
  rfl

theorem earliest_reducer_ignores_later_deletion :
    Insertions [(((2 : Key), [Value.int 6]), (1 : ℤ)), ((1, [.int 7]), 1)] ∧
      ∃ k v d, runKey earliestReducerLogic none
        ([(((2 : Key), [Value.int 6]), (1 : ℤ)), ((1, [.int 7]), 1)] :: [[((1, [.int 7]), -1)]]) =
          .ok (some v, []) ∧ ((k, [v]), d) ∈ [(((2 : Key), [Value.int 6]), (1 : ℤ)), ((1, [.int 7]), 1)] ∧
        ∀ e ∈ [(((2 : Key), [Value.int 6]), (1 : ℤ)), ((1, [.int 7]), 1)],
          k.val.toNat ≤ e.1.1.val.toNat :=
  have h : Insertions [(((2 : Key), [Value.int 6]), (1 : ℤ)), ((1, [.int 7]), 1)] :=
    ⟨List.cons_ne_nil _ _, by decide⟩
  ⟨h, earliest_reducer_first_batch _ _ h⟩

end StatefulReduce
end Pathway
