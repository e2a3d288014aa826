import Pathway.Engine.ExpressionRun

/-! Restarting `expression_table_non_deterministic` from persisted state. Its output rows are
saved through a purge that keeps the values of the expressions that are not deterministic and
`None` for the others; on restart each saved row comes back as an `Old` entry, which primes
the caches. Replaying the live rows into empty caches restores what the caches of an
uninterrupted run hold, so a later deletion re-emits the saved values. -/
namespace Pathway
namespace Expression

/-- `should_cache`: the expressions whose values are saved, those not deterministic. -/
def shouldCache (exprs : List ExpressionData) : List Bool := exprs.map fun e => !e.deterministic

/-- The saved values of a result tuple. -/
def purgeValues (exprs : List ExpressionData) (values : List Value) : List Value :=
  (values.zip (shouldCache exprs)).map fun p => if p.2 then p.1 else .none

/-- The purge closure of `maybe_persist_with_logic`. -/
def purge (exprs : List ExpressionData) (v : Value) : Except Error Value :=
  match v.asTuple with
  | some values => pure (.tuple (purgeValues exprs values))
  | none => throw (.assertion "returned value is a tuple")

/-- The `Old` entries replaying the saved results `r k` of the live keys. -/
def replayBatch (exprs : List ExpressionData) (keys : List Key) (r : Key → List Value)
    (d : Key → ℤ) : Batch :=
  keys.map fun k => ((k, .old (.tuple (purgeValues exprs (r k)))), d k)

/-- What priming with the saved values `states` of a key puts in cache `j`. -/
def primedValue (exprs : List ExpressionData) (states : List Value) (j : ℕ) : Option Value :=
  match exprs[j]?, states[j]? with
  | some e, some s => if e.deterministic then none else some s
  | _, _ => none

theorem replayBatch_eq_mapM_purge (exprs : List ExpressionData) (r : Key → List Value)
    (d : Key → ℤ) : ∀ keys : List Key,
    keys.mapM (fun k => (fun s => ((k, OldOrNew.old s), d k)) <$> purge exprs (.tuple (r k))) =
      .ok (replayBatch exprs keys r d)
  | [] => rfl
  | k :: keys => by
    rw [List.mapM_cons, replayBatch_eq_mapM_purge exprs r d keys]
    rfl

/-- The saved value of expression `j` of a result with a value for every expression: the
result's value if the expression is not deterministic. -/
theorem primedValue_purgeValues {exprs : List ExpressionData} {values : List Value}
    (hlen : values.length = exprs.length) (j : ℕ) (e : ExpressionData) (he : exprs[j]? = some e) :
    primedValue exprs (purgeValues exprs values) j =
      if e.deterministic then none else values[j]? := by
  have hj : j < values.length := hlen ▸ (List.getElem?_eq_some_iff.1 he).1
  simp only [primedValue, purgeValues, shouldCache, he, List.getElem?_map, List.zip,
    List.getElem?_zipWith, List.getElem?_eq_getElem hj]
  obtain ⟨_ | _, _⟩ := e <;> rfl

theorem primedValue_nil_left (ss : List Value) (j : ℕ) : primedValue [] ss j = none := rfl

theorem primedValue_nil_right (es : List ExpressionData) (j : ℕ) : primedValue es [] j = none := by
  simp only [primedValue, List.getElem?_nil]
  split <;> simp_all

theorem primedValue_cons_succ (e : ExpressionData) (es : List ExpressionData) (s : Value)
    (ss : List Value) (j : ℕ) : primedValue (e :: es) (s :: ss) (j + 1) = primedValue es ss j := by
  simp [primedValue]

/-- Priming with the saved values of a key that the caches from slot `i` on do not hold puts
the value of each expression that is not deterministic into its cache. -/
theorem primeCaches_fresh (k : Key) : ∀ (es : List ExpressionData) (ss : List Value) (i : ℕ)
    (cs : Caches), (∀ j, i ≤ j → cs j k = none) →
    primeCaches k i es ss cs =
      .ok fun j k' => if k' = k ∧ i ≤ j then primedValue es ss (j - i) else cs j k'
  | [], ss, i, cs, h | e :: es, [], i, cs, h => by
    refine congrArg Except.ok (funext fun j => funext fun k' => ?_)
    split_ifs with hk
    · rw [hk.1, h j hk.2]
      simp only [primedValue_nil_left, primedValue_nil_right]
    · rfl
  | e :: es, s :: ss, i, cs, h => by
    have hshift : ∀ j, i < j →
        primedValue (e :: es) (s :: ss) (j - i) = primedValue es ss (j - (i + 1)) := fun j hj => by
      rw [show j - i = j - (i + 1) + 1 by omega, primedValue_cons_succ]
    have hfirst : primedValue (e :: es) (s :: ss) 0 = if e.deterministic then none else some s := by
      simp [primedValue]
    simp only [primeCaches]
    cases hd : e.deterministic
    · simp only [Bool.false_eq_true, if_false, h i le_rfl]
      rw [primeCaches_fresh k es ss (i + 1) _ fun j hj => by
        rw [Function.update_noteq (by omega)]; exact h j (by omega)]
      refine congrArg Except.ok (funext fun j => funext fun k' => ?_)
      rcases Nat.lt_trichotomy j i with hj | rfl | hj
      · simp [Function.update_noteq hj.ne, show ¬ i ≤ j by omega, show ¬ i + 1 ≤ j by omega]
      · by_cases hk : k' = k <;> simp [hk, hfirst, hd]
      · simp [Function.update_noteq hj.ne', show i ≤ j by omega, show i + 1 ≤ j by omega,
          hshift j hj]
    · simp only [if_true]
      rw [primeCaches_fresh k es ss (i + 1) cs fun j hj => h j (by omega)]
      refine congrArg Except.ok (funext fun j => funext fun k' => ?_)
      rcases Nat.lt_trichotomy j i with hj | rfl | hj
      · simp [show ¬ i ≤ j by omega, show ¬ i + 1 ≤ j by omega]
      · by_cases hk : k' = k <;> simp [hk, hfirst, hd, h j le_rfl]
      · simp [show i ≤ j by omega, show i + 1 ≤ j by omega, hshift j hj]

/-- Replaying the saved rows of distinct keys that the caches do not hold primes the caches
with their saved values and makes no row. -/
theorem collectRows_replay (exprs : List ExpressionData) (paths : List ColumnPath)
    (r : Key → List Value) (d : Key → ℤ) :
    ∀ (keys : List Key) (cs : Caches) (i : ℕ), keys.Nodup → (∀ j, ∀ k ∈ keys, cs j k = none) →
      collectRows exprs paths cs i (replayBatch exprs keys r d) =
        .ok (fun j k => if k ∈ keys then primedValue exprs (purgeValues exprs (r k)) j
          else cs j k, [])
  | [], cs, i, _, _ => by simp [replayBatch, collectRows]
  | k :: keys, cs, i, hnd, h => by
    rw [List.nodup_cons] at hnd
    have ih := collectRows_replay exprs paths r d keys (fun j k' => if k' = k ∧ 0 ≤ j then
        primedValue exprs (purgeValues exprs (r k)) (j - 0) else cs j k') (i + 1) hnd.2
      fun j k' hk' => by
      have hne : k' ≠ k := fun he => hnd.1 (he ▸ hk')
      simp [hne, h j k' (List.mem_cons_of_mem _ hk')]
    simp only [replayBatch, List.map_cons, collectRows, Value.asTuple_tuple,
      primeCaches_fresh k exprs _ 0 cs fun j _ => h j k (List.mem_cons_self _ _), ok_bind] at ih ⊢
    rw [ih]
    refine congrArg (fun cs => Except.ok (cs, [])) (funext fun j => funext fun k' => ?_)
    by_cases hk : k' = k
    · subst hk
      simp [hnd.1]
    · simp [hk]

theorem evaluateExpression_nil (e : ExpressionData) (ev : BatchEval) {n : ℕ} (hn : 0 < n)
    (c : Cache) : evaluateExpression e ev n c [] = .ok (c, [], []) := by
  simp [evaluateExpression, lookupRows, evalChunks, Nat.pos_iff_ne_zero.1 hn, chunks, chunksAux,
    zipEq, storeResults, fillColumn]

/-- With no row to compute, the loop over the expressions leaves the caches alone. -/
theorem evaluateAll_nil (evs : ℕ → BatchEval) {n : ℕ} (hn : 0 < n) :
    ∀ (exprs : List ExpressionData) (i : ℕ) (cs : Caches),
      evaluateAll evs n [] i exprs cs = .ok (cs, exprs.map fun _ => [], [])
  | [], _, _ => rfl
  | e :: es, i, cs => by
    simp only [evaluateAll, evaluateExpression_nil e _ hn, ok_bind, Function.update_eq_self,
      evaluateAll_nil evs hn es]
    rfl

/-- Even with no row, the first expression stops at `chunks(0)`. -/
theorem evaluateAll_nil_zero (evs : ℕ → BatchEval) {exprs : List ExpressionData}
    (he : exprs ≠ []) (i : ℕ) (cs : Caches) :
    evaluateAll evs 0 [] i exprs cs = .error (.assertion "chunk size must be non-zero") := by
  obtain ⟨e, es, rfl⟩ := List.exists_cons_of_ne_nil he
  simp only [evaluateAll, evaluateExpression_zero e _
    (show lookupRows e (cs i) [] = .ok (cs i, []) from rfl), error_bind]

theorem assemble_replay (exprs : List ExpressionData) (r : Key → List Value) (d : Key → ℤ)
    (cols : List (List Value)) (j : ℕ) : ∀ keys : List Key,
    assemble cols [] j (replayBatch exprs keys r d) = (replayBatch exprs keys r d).map fun _ => none
  | [] => rfl
  | _ :: keys => congrArg (none :: ·) (assemble_replay exprs r d cols j keys)

/-- Replaying the saved rows of distinct keys into empty caches: with a chunk size of zero
the first expression stops at `chunks(0)`; otherwise the closure emits no row, logs nothing,
and primes the caches with the saved values. -/
theorem evaluateBatch_replay (exprs : List ExpressionData) (paths : List ColumnPath) {n : ℕ}
    (evs : ℕ → BatchEval) {keys : List Key} (hnd : keys.Nodup) (r : Key → List Value)
    (d : Key → ℤ) :
    (n = 0 → exprs ≠ [] → evaluateBatch exprs paths n evs (fun _ _ => none)
      (replayBatch exprs keys r d) = .error (.assertion "chunk size must be non-zero")) ∧
    (0 < n ∨ exprs = [] → evaluateBatch exprs paths n evs (fun _ _ => none)
      (replayBatch exprs keys r d) = .ok (fun j k => if k ∈ keys then
        primedValue exprs (purgeValues exprs (r k)) j else none,
        (replayBatch exprs keys r d).map fun _ => none, [])) := by
  have hc := collectRows_replay exprs paths r d keys (fun _ _ => none) 0 hnd fun _ _ _ => rfl
  refine ⟨fun hn he => ?_, fun h => ?_⟩
  · subst hn
    simp only [evaluateBatch, hc, ok_bind, evaluateAll_nil_zero evs he, error_bind]
  · have hall : ∀ cs, evaluateAll evs n [] 0 exprs cs = .ok (cs, exprs.map fun _ => [], []) := by
      rcases h with hn | rfl
      · exact evaluateAll_nil evs hn exprs 0
      · exact fun _ => rfl
    simp only [evaluateBatch, hc, ok_bind, hall, assemble_replay]
    rfl

/-- The restored caches hold, for each expression that is not deterministic, the saved
values of exactly the live keys. -/
theorem cachesInv_primed (exprs : List ExpressionData) {keys : List Key} (r : Key → List Value)
    (hr : ∀ k ∈ keys, (r k).length = exprs.length) :
    CachesInv exprs (fun k => decide (k ∈ keys))
      (fun j k => if k ∈ keys then primedValue exprs (purgeValues exprs (r k)) j else none) := by
  intro j e he hd
  have hv : ∀ k ∈ keys, (primedValue exprs (purgeValues exprs (r k)) j).isSome := fun k hk => by
    have hj : j < (r k).length := hr k hk ▸ (List.getElem?_eq_some_iff.1 he).1
    simp [primedValue_purgeValues (hr k hk) j e he, hd, List.getElem?_eq_getElem hj]
  unfold CacheInv
  split
  · intro k hk
    simp only [decide_eq_true_eq] at hk
    simpa [hk] using hv k hk
  · intro k
    by_cases hk : k ∈ keys <;> simp [hk, hv]

/-- Deletions of distinct keys that pass the retraction check emit what the cache holds. -/
theorem retractCheck_deletions_cached : ∀ (s : List (Key × ℤ × Value)) (m m' : Cache),
    (∀ x ∈ s, x.2.1 = -1) → (s.map (·.1)).Nodup → retractCheck m s = some m' →
      ∀ x ∈ s, m x.1 = some x.2.2
  | [], _, _, _, _, _, _, hx => nomatch hx
  | (k, d, v) :: s, m, m', hd, hnd, h, x, hx => by
    simp only [List.forall_mem_cons] at hd
    simp only [List.map_cons, List.nodup_cons] at hnd
    simp only [retractCheck, hd.1, if_true] at h
    split_ifs at h with hm
    rcases List.mem_cons.1 hx with rfl | hx
    · exact hm
    · have hne : x.1 ≠ k := fun he => hnd.1 (he ▸ List.mem_map_of_mem _ hx)
      simpa [hne] using retractCheck_deletions_cached s (m.erase k) m' hd.2 hnd.2 h x hx

/-- Rows that pass the first-value check emit, for a key the cache holds, its value. -/
theorem firstCheck_cached : ∀ (s : List (Key × ℤ × Value)) (m m' : Cache),
    firstCheck m s = some m' → ∀ x ∈ s, ∀ w, m x.1 = some w → x.2.2 = w
  | [], _, _, _, _, hx, _, _ => nomatch hx
  | (k, d, v) :: s, m, m', h, x, hx, w, hw => by
    simp only [firstCheck] at h
    rcases List.mem_cons.1 hx with rfl | hx
    · simp only [hw] at h
      split_ifs at h with hwv
      exact hwv.symm
    · cases hmk : m k with
      | none =>
        have hne : x.1 ≠ k := fun he => by simp [he, hmk] at hw
        rw [hmk] at h
        exact firstCheck_cached s _ m' h x hx w (by simp [hne, hw])
      | some w' =>
        simp only [hmk] at h
        split_ifs at h
        exact firstCheck_cached s m m' h x hx w hw

theorem emitted_append (j : ℕ) (D I : List ((Key × Value) × ℤ))
    (out : List (Option (Key × Value))) (h : D.length ≤ out.length) :
    emitted j (D ++ I) out = emitted j D (out.take D.length) ++ emitted j I (out.drop D.length) := by
  conv_lhs => rw [← List.take_append_drop D.length out]
  exact List.zipWith_append _ _ _ _ _ (by simp; omega)

/-- The deletions of a batch that `alternate` accepts from the live keys are emitted with
`-1`, for distinct live keys. -/
theorem emitted_deletions_live {live live₁ : Key → Bool} {j : ℕ} {D : List ((Key × Value) × ℤ)}
    {out : List (Option (Key × Value))} (hD : ∀ y ∈ D, y.2 ≤ 0)
    (hl : alternate live (keyDiffs D) = some live₁) (hlen : D.length ≤ out.length) :
    (∀ y ∈ emitted j D (out.take D.length), y.2.1 = -1 ∧ live y.1 = true) ∧
      ((emitted j D (out.take D.length)).map (·.1)).Nodup := by
  obtain ⟨hD₁, hDnd, -⟩ := alternate_deletions (keyDiffs D) _ _ (fun y hy => by
    obtain ⟨z, hz, rfl⟩ := List.mem_map.1 hy
    exact hD z hz) hl
  have hkdD := emitted_keyDiffs j D (out.take D.length) (by simp; omega)
  refine ⟨fun y hy => hD₁ _ (hkdD ▸ List.mem_map_of_mem (fun y : Key × ℤ × Value => (y.1, y.2.1)) hy),
    ?_⟩
  rw [show (emitted j D (out.take D.length)).map (·.1) = (keyDiffs D).map Prod.fst by
    rw [← hkdD, List.map_map]; rfl]
  exact hDnd

/-- In a batch of deletions followed by insertions, what is emitted at a deletion is emitted
by the deletions. -/
theorem mem_emitted_deletions {j : ℕ} {D I : List ((Key × Value) × ℤ)}
    {out : List (Option (Key × Value))} (hI : ∀ y ∈ I, 0 < y.2)
    (hlen : out.length = D.length + I.length) {x : Key × ℤ × Value}
    (hx : x ∈ emitted j (D ++ I) out) (hd : x.2.1 = -1) : x ∈ emitted j D (out.take D.length) := by
  rw [emitted_append j D I out (by omega)] at hx
  refine (List.mem_append.1 hx).resolve_right fun hxI => ?_
  have hkd := emitted_keyDiffs j I (out.drop D.length) (by simp; omega)
  obtain ⟨y, hy, hxy⟩ := List.mem_map.1 (hkd ▸ List.mem_map_of_mem (fun x : Key × ℤ × Value => (x.1, x.2.1)) hxI)
  have := hI y hy
  simp only [Prod.mk.injEq] at hxy
  omega

/-- A deletion that is the first row of its key is accepted only from a live key. -/
theorem alternate_first_deletion {k : Key} {ys : List (Key × ℤ)} :
    ∀ (xs : List (Key × ℤ)) (live : Key → Bool), (∀ y ∈ xs, y.1 ≠ k) →
      alternate live (xs ++ (k, -1) :: ys) ≠ none → live k = true
  | [], live, _, h => by
    by_contra hk
    simp [alternate, hk] at h
  | (k', d) :: xs, live, hxs, h => by
    rw [List.forall_mem_cons] at hxs
    have hne : k ≠ k' := fun he => hxs.1 he.symm
    rw [List.cons_append, alternate] at h
    split_ifs at h
    · simpa [hne] using alternate_first_deletion xs _ hxs.2 h
    · simpa [hne] using alternate_first_deletion xs _ hxs.2 h
    · exact absurd rfl h

/-- A deletion of a key that no earlier row touches emits what the cache held for it at the
start. -/
theorem retractCheck_first_deletion {k : Key} {v : Value} {post : List (Key × ℤ × Value)} :
    ∀ (pre : List (Key × ℤ × Value)) (m : Cache), (∀ y ∈ pre, y.1 ≠ k) →
      retractCheck m (pre ++ (k, -1, v) :: post) ≠ none → m k = some v
  | [], m, _, h => by
    rw [List.nil_append, retractCheck, if_pos rfl] at h
    by_contra hm
    exact h (if_neg hm)
  | (k', d, v') :: pre, m, hpre, h => by
    rw [List.forall_mem_cons] at hpre
    have hne : k ≠ k' := fun he => hpre.1 he.symm
    rw [List.cons_append, retractCheck] at h
    split_ifs at h
    · simpa [hne] using retractCheck_first_deletion pre _ hpre.2 h
    · exact absurd rfl h
    · simpa [hne] using retractCheck_first_deletion pre _ hpre.2 h

/-- Restart restores the caches of `expression_table_non_deterministic`. For live keys
`keys`, distinct, each with the result tuple `r k` emitted for it (a value per expression),
the batch of `Old` entries holding the purged results, replayed into empty caches, stops at
`chunks(0)` when the chunk size is zero and there is an expression; otherwise it emits no row,
logs nothing, leaves the cache of every deterministic expression empty, and sets
`caches[j][k] = r k [j]` for every expression `j` that is not deterministic and nothing else.
Hence over any later batch, deletions first and its rows alternating per key from the live
keys, each deletion of `k` emits, for every expression `j` that is not deterministic, the
saved `r k [j]`, as the uninterrupted run does. -/
theorem restart_restores_caches (exprs : List ExpressionData) (paths : List ColumnPath) (n : ℕ)
    (evs : ℕ → BatchEval) (keys : List Key) (hnd : keys.Nodup) (r : Key → List Value)
    (hr : ∀ k ∈ keys, (r k).length = exprs.length) (d : Key → ℤ) :
    keys.mapM (fun k => (fun s => ((k, OldOrNew.old s), d k)) <$> purge exprs (.tuple (r k))) =
      .ok (replayBatch exprs keys r d) ∧
    (n = 0 → exprs ≠ [] → evaluateBatch exprs paths n evs (fun _ _ => none)
      (replayBatch exprs keys r d) = .error (.assertion "chunk size must be non-zero")) ∧
    (0 < n ∨ exprs = [] → ∃ cs, evaluateBatch exprs paths n evs (fun _ _ => none)
        (replayBatch exprs keys r d) = .ok (cs, (replayBatch exprs keys r d).map fun _ => none, []) ∧
      (∀ j e, exprs[j]? = some e → ∀ k,
        cs j k = if e.deterministic then none else if k ∈ keys then (r k)[j]? else none) ∧
      ∀ (evs' : ℕ → BatchEval) (b : List ((Key × Value) × ℤ)) (cs' : Caches)
        (out : List (Option (Key × Value))) (log : List DataError),
        b.Pairwise (fun x y => 0 < x.2 → 0 < y.2) →
        (alternate (fun k => decide (k ∈ keys)) (keyDiffs b)).isSome →
        evaluateBatch exprs paths n evs' cs (newBatch b) = .ok (cs', out, log) →
        ∀ j e, exprs[j]? = some e → e.deterministic = false →
          ∀ x ∈ emitted j b out, x.2.1 = -1 → (r x.1)[j]? = some x.2.2) := by
  obtain ⟨hzero, hok⟩ := evaluateBatch_replay exprs paths (n := n) evs hnd r d
  refine ⟨replayBatch_eq_mapM_purge exprs r d keys, hzero, fun h => ⟨_, hok h, ?_, ?_⟩⟩
  · intro j e he k
    by_cases hk : k ∈ keys
    · simp only [hk, if_true, primedValue_purgeValues (hr k hk) j e he]
    · simp only [hk, if_false, ite_self]
  intro evs' b cs' out log hsplit halt hb j e he hd x hx hdx
  obtain ⟨live', hlive'⟩ := Option.isSome_iff_exists.1 halt
  obtain ⟨hkeys, -, hchecks⟩ := evaluateBatch_newBatch_post exprs paths evs' hsplit hlive'
    (cachesInv_primed exprs r hr) hb
  obtain ⟨D, I, rfl, hD, hI⟩ := exists_deletions_first (·.2) b hsplit
  have hlen : out.length = D.length + I.length := by simpa using congrArg List.length hkeys
  have hxD := mem_emitted_deletions hI hlen hx hdx
  -- the deletions remove distinct live keys
  rw [keyDiffs_append, alternate_append, Option.bind_eq_some] at hlive'
  obtain ⟨live₁, hl₁, -⟩ := hlive'
  obtain ⟨hmemD, hndD⟩ := emitted_deletions_live (j := j) hD hl₁ (show D.length ≤ out.length by omega)
  -- the restored cache holds the saved value, which the deletion emits
  have hxk : x.1 ∈ keys := of_decide_eq_true (hmemD x hxD).2
  have hj : j < (r x.1).length := hr _ hxk ▸ (List.getElem?_eq_some_iff.1 he).1
  have hval : (if x.1 ∈ keys then primedValue exprs (purgeValues exprs (r x.1)) j else none) =
      some (r x.1)[j] := by
    simp [hxk, primedValue_purgeValues (hr _ hxk) j e he, hd, List.getElem?_eq_getElem hj]
  have happ := emitted_append j D I out (by omega)
  rw [List.getElem?_eq_getElem hj]
  cases hao : e.appendOnly
  · have hret := (hchecks j e he hd).1 hao
    rw [happ, retractCheck_append, Option.bind_eq_some] at hret
    obtain ⟨m₁, hm₁, -⟩ := hret
    rw [← hval]
    exact retractCheck_deletions_cached _ _ _ (fun y hy => (hmemD y hy).1) hndD hm₁ x hxD
  · have hfirst := (hchecks j e he hd).2 hao
    rw [happ, firstCheck_append, Option.bind_eq_some] at hfirst
    obtain ⟨m₁, hm₁, -⟩ := hfirst
    rw [firstCheck_cached _ _ _ hm₁ x hxD _ hval]

/-- A non-deterministic expression and a deterministic one. -/
def sampleExprs : List ExpressionData := [⟨false, false⟩, ⟨true, false⟩]

/-- The result tuple emitted for every key of the sample. -/
def sampleResult (_ : Key) : List Value := [.int 7, .int 8]

theorem restart_restores_caches_sample :
    [(0 : Key), 1].Nodup ∧ (∀ k ∈ [(0 : Key), 1], (sampleResult k).length = sampleExprs.length) ∧
    [(0 : Key), 1].mapM (fun k => (fun s => ((k, OldOrNew.old s), (1 : ℤ))) <$>
      purge sampleExprs (.tuple (sampleResult k))) =
      .ok (replayBatch sampleExprs [0, 1] sampleResult fun _ => 1) ∧
    (1 = 0 → sampleExprs ≠ [] → evaluateBatch sampleExprs [] 1 (fun _ => noneEval)
      (fun _ _ => none) (replayBatch sampleExprs [0, 1] sampleResult fun _ => 1) =
        .error (.assertion "chunk size must be non-zero")) ∧
    (0 < 1 ∨ sampleExprs = [] → ∃ cs, evaluateBatch sampleExprs [] 1 (fun _ => noneEval)
        (fun _ _ => none) (replayBatch sampleExprs [0, 1] sampleResult fun _ => 1) =
          .ok (cs, (replayBatch sampleExprs [0, 1] sampleResult fun _ => 1).map fun _ => none, []) ∧
      (∀ j e, sampleExprs[j]? = some e → ∀ k, cs j k =
        if e.deterministic then none else if k ∈ [(0 : Key), 1] then (sampleResult k)[j]? else none) ∧
      ∀ (evs' : ℕ → BatchEval) (b : List ((Key × Value) × ℤ)) (cs' : Caches)
        (out : List (Option (Key × Value))) (log : List DataError),
        b.Pairwise (fun x y => 0 < x.2 → 0 < y.2) →
        (alternate (fun k => decide (k ∈ [(0 : Key), 1])) (keyDiffs b)).isSome →
        evaluateBatch sampleExprs [] 1 evs' cs (newBatch b) = .ok (cs', out, log) →
        ∀ j e, sampleExprs[j]? = some e → e.deterministic = false →
          ∀ x ∈ emitted j b out, x.2.1 = -1 → (sampleResult x.1)[j]? = some x.2.2) :=
  have hnd : [(0 : Key), 1].Nodup := by decide
  have hr : ∀ k ∈ [(0 : Key), 1], (sampleResult k).length = sampleExprs.length := fun _ _ => rfl
  ⟨hnd, hr, restart_restores_caches sampleExprs [] 1 (fun _ => noneEval) _ hnd sampleResult hr
    fun _ => 1⟩

/-- Restart restores the caches for every later batch. After the replay of the saved rows of
distinct live keys, with a chunk size that is not zero, a later run of batches of `New`
entries, each with its deletions first and its rows alternating per key from the live keys,
fails only where extracting an entry's arguments fails; and when it succeeds, a deletion of a
key that has no earlier row in the run, in whichever batch it falls, emits for every
expression `j` that is not deterministic the saved `r k [j]`, as the uninterrupted run does. -/
theorem restart_later_deletions_reemit (exprs : List ExpressionData) (paths : List ColumnPath)
    {n : ℕ} (hn : 0 < n) (evs : ℕ → BatchEval) {keys : List Key} (hnd : keys.Nodup)
    (r : Key → List Value) (hr : ∀ k ∈ keys, (r k).length = exprs.length) (d : Key → ℤ)
    (batches : List ((ℕ → BatchEval) × List ((Key × Value) × ℤ)))
    (hsplit : ∀ p ∈ batches, p.2.Pairwise fun x y => 0 < x.2 → 0 < y.2)
    (halt : (alternate (fun k => decide (k ∈ keys)) (keyDiffs (batches.flatMap (·.2)))).isSome) :
    ∃ cs, evaluateBatch exprs paths n evs (fun _ _ => none) (replayBatch exprs keys r d) =
        .ok (cs, (replayBatch exprs keys r d).map fun _ => none, []) ∧
      (∀ err, run exprs paths n cs (newBatches batches) = .error err →
        ∃ p ∈ batches, ∃ e ∈ p.2, ColumnPath.extractAll paths e.1.1 e.1.2 = .error err) ∧
      ∀ steps, run exprs paths n cs (newBatches batches) = .ok steps →
        ∀ j e, exprs[j]? = some e → e.deterministic = false →
          ∀ pre x post, emittedRun j batches steps = pre ++ x :: post → x.2.1 = -1 →
            (∀ y ∈ pre, y.1 ≠ x.1) → (r x.1)[j]? = some x.2.2 := by
  have hinv := cachesInv_primed exprs r hr
  have halt' := Option.isSome_iff_ne_none.1 halt
  refine ⟨_, (evaluateBatch_replay exprs paths evs hnd r d).2 (.inl hn), fun err h => ?_,
    fun steps h j e he hd pre x post hrun hx hpre => ?_⟩
  · rcases run_newBatches_error exprs paths batches _ _ err hsplit halt' hinv h with
      ⟨rfl, -⟩ | hext
    · exact absurd hn (lt_irrefl 0)
    · exact hext
  obtain ⟨k, dk, v⟩ := x
  dsimp only at hx hpre ⊢
  subst hx
  obtain ⟨hlen, hkeys, -, hchk⟩ := run_newBatches_post exprs paths batches _ _ steps hsplit
    halt' hinv h
  -- the key was live at the restart, since its first row in the run is a deletion
  have hkd := emittedRun_keyDiffs j batches steps hlen fun t q p h1 h2 => by
    simpa using congrArg List.length (hkeys t q p h1 h2)
  simp only [hrun, List.map_append, List.map_cons] at hkd
  rw [← hkd] at halt'
  have hk : k ∈ keys := of_decide_eq_true (alternate_first_deletion _ _ (fun y hy => by
    obtain ⟨z, hz, rfl⟩ := List.mem_map.1 hy
    exact hpre z hz) halt')
  -- the restored cache holds the saved value, which the deletion emits
  have hj : j < (r k).length := hr _ hk ▸ (List.getElem?_eq_some_iff.1 he).1
  have hval : (if k ∈ keys then primedValue exprs (purgeValues exprs (r k)) j else none) =
      some (r k)[j] := by
    simp [hk, primedValue_purgeValues (hr _ hk) j e he, hd, List.getElem?_eq_getElem hj]
  rw [List.getElem?_eq_getElem hj]
  cases hao : e.appendOnly
  · have hret := (hchk j e he hd).1 hao
    rw [hrun] at hret
    exact hval.symm.trans (retractCheck_first_deletion pre _ hpre hret)
  · obtain ⟨m', hm'⟩ := Option.ne_none_iff_exists'.1 ((hchk j e he hd).2 hao)
    rw [hrun] at hm'
    exact congrArg some (firstCheck_cached _ _ _ hm' (k, -1, v)
      (List.mem_append_right _ (List.mem_cons_self _ _)) _ hval).symm

/-- A key inserted after the restart, then a live key deleted. -/
def laterDeletion : List ((ℕ → BatchEval) × List ((Key × Value) × ℤ)) :=
  [(fun _ => noneEval, [((2, .int 1), 1)]), (fun _ => noneEval, [((0, .int 1), -1)])]

theorem restart_later_deletions_reemit_sample :
    0 < 1 ∧ [(0 : Key), 1].Nodup ∧
    (∀ k ∈ [(0 : Key), 1], (sampleResult k).length = sampleExprs.length) ∧
    (∀ p ∈ laterDeletion, p.2.Pairwise fun x y => 0 < x.2 → 0 < y.2) ∧
    (alternate (fun k => decide (k ∈ [(0 : Key), 1])) (keyDiffs (laterDeletion.flatMap (·.2)))).isSome ∧
    ∃ cs, evaluateBatch sampleExprs [] 1 (fun _ => noneEval) (fun _ _ => none)
        (replayBatch sampleExprs [0, 1] sampleResult fun _ => 1) =
        .ok (cs, (replayBatch sampleExprs [0, 1] sampleResult fun _ => 1).map fun _ => none, []) ∧
      (∀ err, run sampleExprs [] 1 cs (newBatches laterDeletion) = .error err →
        ∃ p ∈ laterDeletion, ∃ e ∈ p.2, ColumnPath.extractAll [] e.1.1 e.1.2 = .error err) ∧
      ∀ steps, run sampleExprs [] 1 cs (newBatches laterDeletion) = .ok steps →
        ∀ j e, sampleExprs[j]? = some e → e.deterministic = false →
          ∀ pre x post, emittedRun j laterDeletion steps = pre ++ x :: post → x.2.1 = -1 →
            (∀ y ∈ pre, y.1 ≠ x.1) → (sampleResult x.1)[j]? = some x.2.2 :=
  have hnd : [(0 : Key), 1].Nodup := by decide
  have hr : ∀ k ∈ [(0 : Key), 1], (sampleResult k).length = sampleExprs.length := fun _ _ => rfl
  have hsplit : ∀ p ∈ laterDeletion, p.2.Pairwise fun x y => 0 < x.2 → 0 < y.2 := by decide
  have halt : (alternate (fun k => decide (k ∈ [(0 : Key), 1]))
      (keyDiffs (laterDeletion.flatMap (·.2)))).isSome := by decide
  ⟨by decide, hnd, hr, hsplit, halt, restart_later_deletions_reemit sampleExprs [] (by decide)
    (fun _ => noneEval) hnd sampleResult hr (fun _ => 1) laterDeletion hsplit halt⟩

end Expression
end Pathway
