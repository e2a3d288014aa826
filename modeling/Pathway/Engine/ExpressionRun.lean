import Pathway.Engine.Expression

/-! The caches of `expression_table_non_deterministic` over whole runs. The batches come
from `flat_map_named_with_deletions_first`: the `New` entries of one timestamp, deletions
first, and per key the rows alternate insertion and deletion. Over such runs the cache of
an expression that is neither deterministic nor append-only holds exactly the live keys,
and the cache of an append-only one at least them. `Old` entries are only replayed from
persisted operator state; with persistence off the batches hold `New` entries only. -/
namespace Pathway
namespace Expression

/-- A batch of `New` entries. -/
def newBatch (b : List ((Key × Value) × ℤ)) : Batch := b.map fun e => ((e.1.1, .new e.1.2), e.2)

/-- The keys and diffs of entries. -/
def keyDiffs (b : List ((Key × Value) × ℤ)) : List (Key × ℤ) := b.map fun e => (e.1.1, e.2)

/-- What expression `j` emitted for each entry of a batch: the entry's key and diff with
the `j`-th value of the output tuple at its position. -/
def emitted (j : ℕ) (b : List ((Key × Value) × ℤ)) (out : List (Option (Key × Value))) :
    List (Key × ℤ × Value) :=
  List.zipWith (fun e o => (e.1.1, e.2, match o with
    | some (_, .tuple vs) => vs.getD j .none
    | _ => .none)) b out

@[simp] theorem newBatch_nil : newBatch [] = [] := rfl
@[simp] theorem newBatch_cons (e : (Key × Value) × ℤ) (b : List ((Key × Value) × ℤ)) :
    newBatch (e :: b) = ((e.1.1, .new e.1.2), e.2) :: newBatch b := rfl
@[simp] theorem keyDiffs_append (b b' : List ((Key × Value) × ℤ)) :
    keyDiffs (b ++ b') = keyDiffs b ++ keyDiffs b' := List.map_append _ _ _

/-- A batch with no deletion after an insertion is its deletions followed by its
insertions. -/
theorem exists_deletions_first {α : Type} (f : α → ℤ) :
    ∀ l : List α, l.Pairwise (fun x y => 0 < f x → 0 < f y) →
      ∃ D I, l = D ++ I ∧ (∀ x ∈ D, f x ≤ 0) ∧ ∀ x ∈ I, 0 < f x
  | [], _ => ⟨[], [], rfl, by simp, by simp⟩
  | a :: l, h => by
    rw [List.pairwise_cons] at h
    by_cases ha : 0 < f a
    · exact ⟨[], a :: l, rfl, by simp, by simpa [ha] using fun y hy => h.1 y hy ha⟩
    · obtain ⟨D, I, rfl, hD, hI⟩ := exists_deletions_first f l h.2
      exact ⟨a :: D, I, rfl, by simpa using ⟨by omega, hD⟩, hI⟩

/-- Alternating deletions remove distinct live keys. -/
theorem alternate_deletions : ∀ (D : List (Key × ℤ)) (live live' : Key → Bool),
    (∀ x ∈ D, x.2 ≤ 0) → alternate live D = some live' →
      (∀ x ∈ D, x.2 = -1 ∧ live x.1 = true) ∧ (D.map Prod.fst).Nodup ∧
        ∀ k, live' k = true ↔ k ∉ D.map Prod.fst ∧ live k = true
  | [], live, live', _, h => by cases h; simp
  | (k, d) :: D, live, live', hD, h => by
    simp only [List.forall_mem_cons] at hD
    simp only [alternate] at h
    split_ifs at h with h1 h2
    · exact absurd h1.1 (by simp at hD; omega)
    · obtain ⟨ih1, ih2, ih3⟩ := alternate_deletions D _ live' hD.2 h
      have hk : ∀ x ∈ D, x.1 ≠ k := fun x hx he => by simpa [he] using (ih1 x hx).2
      refine ⟨?_, ?_, fun k' => ?_⟩
      · exact List.forall_mem_cons.2 ⟨h2, fun x hx =>
          ⟨(ih1 x hx).1, by simpa [hk x hx] using (ih1 x hx).2⟩⟩
      · exact List.nodup_cons.2 ⟨fun hm => by
          obtain ⟨x, hx, he⟩ := List.mem_map.1 hm; exact hk x hx he, ih2⟩
      · rw [ih3]; by_cases hk' : k' = k <;> simp [hk']

/-- Alternating insertions add distinct keys that are not live. -/
theorem alternate_insertions : ∀ (I : List (Key × ℤ)) (live live' : Key → Bool),
    (∀ x ∈ I, 0 < x.2) → alternate live I = some live' →
      (∀ x ∈ I, x.2 = 1 ∧ live x.1 = false) ∧ (I.map Prod.fst).Nodup ∧
        ∀ k, live' k = true ↔ k ∈ I.map Prod.fst ∨ live k = true
  | [], live, live', _, h => by cases h; simp
  | (k, d) :: I, live, live', hI, h => by
    simp only [List.forall_mem_cons] at hI
    simp only [alternate] at h
    split_ifs at h with h1 h2
    · obtain ⟨ih1, ih2, ih3⟩ := alternate_insertions I _ live' hI.2 h
      have hk : ∀ x ∈ I, x.1 ≠ k := fun x hx he => by simpa [he] using (ih1 x hx).2
      refine ⟨?_, ?_, fun k' => ?_⟩
      · exact List.forall_mem_cons.2 ⟨h1, fun x hx =>
          ⟨(ih1 x hx).1, by simpa [hk x hx] using (ih1 x hx).2⟩⟩
      · exact List.nodup_cons.2 ⟨fun hm => by
          obtain ⟨x, hx, he⟩ := List.mem_map.1 hm; exact hk x hx he, ih2⟩
      · rw [ih3]; by_cases hk' : k' = k <;> simp [hk']
    · exact absurd h2.1 (by simp at hI; omega)

/-- What the cache of a non-deterministic expression holds when the live keys are `live`:
exactly them, or, for an append-only expression, at least them. -/
def CacheInv (e : ExpressionData) (live : Key → Bool) (c : Cache) : Prop :=
  if e.appendOnly then ∀ k, live k = true → (c k).isSome else ∀ k, (c k).isSome = live k

section Batch
variable (e : ExpressionData) (ev : BatchEval) {n : ℕ} {c : Cache} {live live' : Key → Bool}
  {D I : List RowData}

/-- One expression over an alternating batch, deletions first: it succeeds, keeps its
invariant, and emits what the checks ask for. -/
theorem evaluateExpression_batch (hn : 0 < n) (hD : ∀ r ∈ D, r.diff ≤ 0)
    (hI : ∀ r ∈ I, 0 < r.diff)
    (halt : alternate live ((D ++ I).map fun r => (r.key, r.diff)) = some live')
    (hinv : e.deterministic = false → CacheInv e live c) :
    ∃ c' col log, evaluateExpression e ev n c (D ++ I) = .ok (c', col, log) ∧
      col.length = D.length + I.length ∧
      (e.deterministic = false → CacheInv e live' c' ∧
        (e.appendOnly = false → retractCheck c (emitRows (D ++ I) col) = some c') ∧
        (e.appendOnly = true → firstCheck c (emitRows (D ++ I) col) = some c')) := by
  rw [List.map_append, alternate_append, Option.bind_eq_some] at halt
  obtain ⟨live₁, h₁, h₂⟩ := halt
  obtain ⟨hD1, hDnd, hlive₁⟩ := alternate_deletions _ _ _ (by simpa using hD) h₁
  obtain ⟨hI1, hInd, hlive'⟩ := alternate_insertions _ _ _ (by simpa using hI) h₂
  simp only [List.forall_mem_map, List.map_map, Function.comp_def] at hD1 hI1 hDnd hInd hlive₁ hlive'
  cases hdet : e.deterministic
  case true =>
    obtain ⟨log, hev⟩ := evaluateExpression_deterministic e hdet ev hn c (D ++ I)
    exact ⟨_, _, log, hev, by simp [length_computed ev hn], by simp⟩
  case false =>
  have hinv := hinv hdet
  unfold CacheInv at hinv ⊢
  cases hao : e.appendOnly
  case false =>
    simp only [hao, Bool.false_eq_true, if_false] at hinv ⊢
    obtain ⟨c', col, log, hev, hlen, hret, hkeys⟩ := evaluateExpression_retracting e hdet hao ev hn
      c D I (fun r hr => ⟨(hD1 r hr).1, by simpa [← Option.isSome_iff_ne_none, hinv] using
        (hD1 r hr).2⟩) hDnd (fun r hr => ⟨(hI1 r hr).1, by
          by_cases hk : r.key ∈ D.map (·.key)
          · simp [Cache.eraseAll, hk]
          · have hl : live r.key ≠ true := fun h => by
              simpa [(hlive₁ _).2 ⟨hk, h⟩] using (hI1 r hr).2
            simpa [Cache.eraseAll, hk, ← Option.not_isSome_iff_eq_none, hinv] using hl⟩)
      hInd
    refine ⟨c', col, log, hev, hlen, fun _ => ⟨fun k => ?_, fun _ => hret, by simp⟩⟩
    rw [Bool.eq_iff_iff, hkeys, hlive', hlive₁, hinv]
  case true =>
    simp only [hao, if_true] at hinv ⊢
    have hnd : (((D ++ I).filter fun r => (c r.key).isNone).map (·.key)).Nodup := by
      have hDf : D.filter (fun r => (c r.key).isNone) = [] :=
        List.filter_eq_nil_iff.2 fun r hr => by
          simpa [Option.isNone_iff_eq_none] using Option.isSome_iff_ne_none.1 (hinv _ (hD1 r hr).2)
      rw [List.filter_append, hDf, List.nil_append]
      exact (List.Sublist.map _ (List.filter_sublist I)).nodup hInd
    obtain ⟨c', col, log, hev, hlen, hfirst, hkeys⟩ :=
      evaluateExpression_appendOnly e hdet hao ev hn c (D ++ I) hnd
    refine ⟨c', col, log, hev, by simpa using hlen, fun _ => ⟨fun k hk => ?_, by simp, fun _ => hfirst⟩⟩
    rw [hkeys]
    rcases (hlive' k).1 hk with h | h
    · obtain ⟨r, hr, rfl⟩ := List.mem_map.1 h
      exact .inr ⟨r, List.mem_append_right _ hr, rfl⟩
    · exact .inl (hinv k ((hlive₁ k).1 h).2)

/-- With chunks of size zero, every expression over such a batch stops at `chunks(0)`. -/
theorem evaluateExpression_batch_zero (hD : ∀ r ∈ D, r.diff ≤ 0) (hI : ∀ r ∈ I, 0 < r.diff)
    (halt : alternate live ((D ++ I).map fun r => (r.key, r.diff)) = some live')
    (hinv : e.deterministic = false → CacheInv e live c) :
    evaluateExpression e ev 0 c (D ++ I) = .error (.assertion "chunk size must be non-zero") := by
  obtain ⟨c', col, log, hev, -⟩ := evaluateExpression_batch e ev Nat.one_pos hD hI halt hinv
  cases hl : lookupRows e c (D ++ I) with
  | error err => simp [evaluateExpression, hl] at hev
  | ok r => exact evaluateExpression_zero e ev hl

/-- What one expression's success over such a batch says. -/
theorem evaluateExpression_batch_post (hD : ∀ r ∈ D, r.diff ≤ 0) (hI : ∀ r ∈ I, 0 < r.diff)
    (halt : alternate live ((D ++ I).map fun r => (r.key, r.diff)) = some live')
    (hinv : e.deterministic = false → CacheInv e live c) {c' : Cache} {col : List Value}
    {log : List DataError} (h : evaluateExpression e ev n c (D ++ I) = .ok (c', col, log)) :
    col.length = D.length + I.length ∧
      (e.deterministic = false → CacheInv e live' c' ∧
        (e.appendOnly = false → retractCheck c (emitRows (D ++ I) col) = some c') ∧
        (e.appendOnly = true → firstCheck c (emitRows (D ++ I) col) = some c')) := by
  rcases Nat.eq_zero_or_pos n with rfl | hn
  · rw [evaluateExpression_batch_zero e ev hD hI halt hinv] at h; cases h
  · obtain ⟨_, _, _, hev, hprop⟩ := evaluateExpression_batch e ev hn hD hI halt hinv
    rw [hev] at h; cases h; exact hprop

/-- What the loop over the expressions gives over such a batch: the `j`-th expression
works on the caches at index `i + j`, and the caches below `i` are left alone. -/
theorem evaluateAll_batch_post (evs : ℕ → BatchEval) (hD : ∀ r ∈ D, r.diff ≤ 0)
    (hI : ∀ r ∈ I, 0 < r.diff)
    (halt : alternate live ((D ++ I).map fun r => (r.key, r.diff)) = some live') :
    ∀ (es : List ExpressionData) (i : ℕ) (cs cs' : Caches) (cols : List (List Value))
      (log : List DataError),
    (∀ j e, es[j]? = some e → e.deterministic = false → CacheInv e live (cs (i + j))) →
    evaluateAll evs n (D ++ I) i es cs = .ok (cs', cols, log) →
      (∀ k < i, cs' k = cs k) ∧ cols.length = es.length ∧
      ∀ j e, es[j]? = some e → ∃ col, cols[j]? = some col ∧ col.length = D.length + I.length ∧
        (e.deterministic = false → CacheInv e live' (cs' (i + j)) ∧
          (e.appendOnly = false →
            retractCheck (cs (i + j)) (emitRows (D ++ I) col) = some (cs' (i + j))) ∧
          (e.appendOnly = true →
            firstCheck (cs (i + j)) (emitRows (D ++ I) col) = some (cs' (i + j))))
  | [], i, cs, cs', cols, log, _, h => by cases h; exact ⟨fun _ _ => rfl, rfl, by simp⟩
  | e :: es, i, cs, cs', cols, log, hinv, h => by
    have hinv₀ : e.deterministic = false → CacheInv e live (cs i) := by
      simpa using hinv 0 e (by simp)
    rw [evaluateAll] at h
    cases hev : evaluateExpression e (evs i) n (cs i) (D ++ I) with
    | error _ => rw [hev] at h; cases h
    | ok r =>
      obtain ⟨c', col, log₁⟩ := r
      have hinv₁ : ∀ j e', es[j]? = some e' → e'.deterministic = false →
          CacheInv e' live (Function.update cs i c' (i + 1 + j)) := fun j e' he' hd => by
        rw [Function.update_noteq (by omega), show i + 1 + j = i + (j + 1) by omega]
        exact hinv (j + 1) e' (by simpa using he') hd
      cases hrest : evaluateAll evs n (D ++ I) (i + 1) es (Function.update cs i c') with
      | error _ => simp only [hev, ok_bind, hrest] at h; cases h
      | ok r' =>
        obtain ⟨cs'', cols', logs⟩ := r'
        simp only [hev, ok_bind, hrest, pure_eq_ok, Except.ok.injEq, Prod.mk.injEq] at h
        obtain ⟨rfl, rfl, rfl⟩ := h
        obtain ⟨hlen, hprop⟩ := evaluateExpression_batch_post e (evs i) hD hI halt hinv₀ hev
        obtain ⟨hframe, hcols, hprops⟩ :=
          evaluateAll_batch_post evs hD hI halt es (i + 1) _ _ _ _ hinv₁ hrest
        have hi : cs'' i = c' := by rw [hframe i (by omega), Function.update_same]
        refine ⟨fun k hk => by rw [hframe k (by omega), Function.update_noteq (by omega)],
          by simp [hcols], ?_⟩
        rintro (_ | j) e' he'
        · obtain rfl : e = e' := by simpa using he'
          exact ⟨col, by simp, hlen, by simpa [hi] using hprop⟩
        · obtain ⟨col', hcol', hlen', hp⟩ := hprops j e' (by simpa using he')
          rw [Function.update_noteq (by omega)] at hp
          exact ⟨col', by simpa using hcol', hlen', by rwa [show i + (j + 1) = i + 1 + j by omega]⟩

/-- Over such a batch the loop over the expressions fails only at `chunks(0)`. -/
theorem evaluateAll_batch_error (evs : ℕ → BatchEval) (hD : ∀ r ∈ D, r.diff ≤ 0)
    (hI : ∀ r ∈ I, 0 < r.diff)
    (halt : alternate live ((D ++ I).map fun r => (r.key, r.diff)) = some live') :
    ∀ (es : List ExpressionData) (i : ℕ) (cs : Caches) (err : Error),
    (∀ j e, es[j]? = some e → e.deterministic = false → CacheInv e live (cs (i + j))) →
    evaluateAll evs n (D ++ I) i es cs = .error err →
      n = 0 ∧ err = .assertion "chunk size must be non-zero"
  | [], _, _, _, _, h => by cases h
  | e :: es, i, cs, err, hinv, h => by
    have hinv₀ : e.deterministic = false → CacheInv e live (cs i) := by
      simpa using hinv 0 e (by simp)
    rw [evaluateAll] at h
    cases hev : evaluateExpression e (evs i) n (cs i) (D ++ I) with
    | error err' =>
      rw [hev] at h; cases h
      rcases Nat.eq_zero_or_pos n with rfl | hn
      · rw [evaluateExpression_batch_zero e (evs i) hD hI halt hinv₀] at hev; cases hev
        exact ⟨rfl, rfl⟩
      · obtain ⟨_, _, _, hok, -⟩ := evaluateExpression_batch e (evs i) hn hD hI halt hinv₀
        rw [hok] at hev; cases hev
    | ok r =>
      obtain ⟨c', col, log₁⟩ := r
      cases hrest : evaluateAll evs n (D ++ I) (i + 1) es (Function.update cs i c') with
      | error err' =>
        simp only [hev, ok_bind, hrest] at h; cases h
        exact evaluateAll_batch_error evs hD hI halt es (i + 1) _ _ (fun j e' he' hd => by
          rw [Function.update_noteq (by omega), show i + 1 + j = i + (j + 1) by omega]
          exact hinv (j + 1) e' (by simpa using he') hd) hrest
      | ok r' => simp only [hev, ok_bind, hrest] at h; cases h

end Batch

section Rows
variable (exprs : List ExpressionData) (paths : List ColumnPath) (cs : Caches)

/-- The first loop turns `New` entries into rows with the entries' keys and diffs, and
touches no cache. -/
theorem collectRows_newBatch_ok : ∀ (b : List ((Key × Value) × ℤ)) (i : ℕ) {r : Caches × List RowData},
    collectRows exprs paths cs i (newBatch b) = .ok r →
      r.1 = cs ∧ r.2.map (fun row => (row.key, row.diff)) = keyDiffs b
  | [], _, _, h => by cases h; exact ⟨rfl, rfl⟩
  | e :: b, i, r, h => by
    rw [newBatch_cons, collectRows] at h
    cases hx : ColumnPath.extractAll paths e.1.1 e.1.2 with
    | error _ => rw [hx] at h; cases h
    | ok args =>
      cases hr : collectRows exprs paths cs (i + 1) (newBatch b) with
      | error _ => rw [hx, ok_bind, hr] at h; cases h
      | ok r' =>
        rw [hx, ok_bind, hr, ok_bind] at h
        cases h
        obtain ⟨h1, h2⟩ := collectRows_newBatch_ok b (i + 1) hr
        exact ⟨h1, by simp [h2, keyDiffs]⟩

/-- The first loop fails only where extracting an entry's arguments fails. -/
theorem collectRows_newBatch_error : ∀ (b : List ((Key × Value) × ℤ)) (i : ℕ) {err : Error},
    collectRows exprs paths cs i (newBatch b) = .error err →
      ∃ e ∈ b, ColumnPath.extractAll paths e.1.1 e.1.2 = .error err
  | [], _, _, h => by cases h
  | e :: b, i, err, h => by
    rw [newBatch_cons, collectRows] at h
    cases hx : ColumnPath.extractAll paths e.1.1 e.1.2 with
    | error err' => rw [hx] at h; cases h; exact ⟨e, List.mem_cons_self _ _, hx⟩
    | ok args =>
      cases hr : collectRows exprs paths cs (i + 1) (newBatch b) with
      | error err' =>
        rw [hx, ok_bind, hr] at h; cases h
        obtain ⟨e', he', hx'⟩ := collectRows_newBatch_error b (i + 1) hr
        exact ⟨e', List.mem_cons_of_mem _ he', hx'⟩
      | ok r' => rw [hx, ok_bind, hr, ok_bind] at h; cases h

/-- Every output row of a batch of `New` entries carries the key of the row at its
position. -/
theorem assemble_newBatch_keys (cols : List (List Value)) :
    ∀ (rows : List RowData) (b : List ((Key × Value) × ℤ)) (j : ℕ), rows.length = b.length →
      (assemble cols rows j (newBatch b)).map (Option.map Prod.fst) = rows.map fun r => some r.key
  | [], [], _, _ => rfl
  | r :: rows, e :: b, j, h => by
    rw [newBatch_cons, assemble, List.map_cons,
      assemble_newBatch_keys cols rows b (j + 1) (by simpa using h)]
    rfl

/-- What expression `j'` emitted over a batch of `New` entries is its column. -/
theorem emitted_assemble {cols : List (List Value)} {j' : ℕ} {col : List Value}
    (hcol : cols[j']? = some col) :
    ∀ (rows : List RowData) (b : List ((Key × Value) × ℤ)) (j : ℕ),
      rows.map (fun r => (r.key, r.diff)) = keyDiffs b → (col.drop j).length = rows.length →
      emitted j' b (assemble cols rows j (newBatch b)) = emitRows rows (col.drop j)
  | [], [], _, _, _ => rfl
  | r :: rows, e :: b, j, hkd, hlen => by
    simp only [List.map_cons, keyDiffs, List.cons.injEq, Prod.mk.injEq] at hkd
    have hj : j < col.length := by simp at hlen; omega
    rw [List.drop_eq_getElem_cons hj, newBatch_cons]
    have ih := emitted_assemble hcol rows b (j + 1) hkd.2 (by simp at hlen ⊢; omega)
    simp only [emitted, emitRows, assemble, List.zipWith_cons_cons] at ih ⊢
    rw [ih, hkd.1.1, hkd.1.2]
    simp [List.getD_eq_getElem?_getD, hcol, List.getElem?_eq_getElem hj]

end Rows


/-- The invariant of all the caches: that of every expression that is not deterministic. -/
def CachesInv (exprs : List ExpressionData) (live : Key → Bool) (cs : Caches) : Prop :=
  ∀ j e, exprs[j]? = some e → e.deterministic = false → CacheInv e live (cs j)

/-- Everything expression `j` emitted over a run, batch after batch. -/
def emittedRun (j : ℕ) (batches : List ((ℕ → BatchEval) × List ((Key × Value) × ℤ)))
    (steps : List (Caches × List (Option (Key × Value)))) : List (Key × ℤ × Value) :=
  (List.zipWith (fun p q => emitted j p.2 q.2) batches steps).flatten

@[simp] theorem emittedRun_cons (j : ℕ) (p : (ℕ → BatchEval) × List ((Key × Value) × ℤ))
    (ps : List ((ℕ → BatchEval) × List ((Key × Value) × ℤ)))
    (q : Caches × List (Option (Key × Value))) (qs : List (Caches × List (Option (Key × Value)))) :
    emittedRun j (p :: ps) (q :: qs) = emitted j p.2 q.2 ++ emittedRun j ps qs := rfl

theorem emitted_keyDiffs (j : ℕ) : ∀ (b : List ((Key × Value) × ℤ)) (out : List (Option (Key × Value))),
    out.length = b.length → (emitted j b out).map (fun x => (x.1, x.2.1)) = keyDiffs b
  | [], [], _ => rfl
  | e :: b, o :: out, h => by
    simp [emitted, keyDiffs] at h ⊢
    simpa [emitted, keyDiffs] using emitted_keyDiffs j b out h

theorem emittedRun_keyDiffs (j : ℕ) :
    ∀ (batches : List ((ℕ → BatchEval) × List ((Key × Value) × ℤ)))
      (steps : List (Caches × List (Option (Key × Value)))), steps.length = batches.length →
    (∀ (t : ℕ) (q : Caches × List (Option (Key × Value)))
      (p : (ℕ → BatchEval) × List ((Key × Value) × ℤ)),
      steps[t]? = some q → batches[t]? = some p → q.2.length = p.2.length) →
    (emittedRun j batches steps).map (fun x => (x.1, x.2.1)) = keyDiffs (batches.flatMap (·.2))
  | [], [], _, _ => rfl
  | p :: ps, q :: qs, hlen, hq => by
    rw [emittedRun_cons, List.map_append, emitted_keyDiffs j _ _ (hq 0 q p (by simp) (by simp)),
      emittedRun_keyDiffs j ps qs (by simpa using hlen) fun t q' p' h1 h2 =>
        hq (t + 1) q' p' (by simpa using h1) (by simpa using h2), List.flatMap_cons, keyDiffs_append]

section Run
variable (exprs : List ExpressionData) (paths : List ColumnPath) {n : ℕ}
  (evs : ℕ → BatchEval) {cs : Caches} {live live' : Key → Bool} {b : List ((Key × Value) × ℤ)}

/-- The rows the first loop makes of a batch with deletions first are its deletions
followed by its insertions, with the batch's keys and diffs. -/
theorem collectRows_newBatch_split (hsplit : b.Pairwise fun x y => 0 < x.2 → 0 < y.2)
    {r : Caches × List RowData} (h : collectRows exprs paths cs 0 (newBatch b) = .ok r) :
    r.1 = cs ∧ ∃ D I, r.2 = D ++ I ∧ (∀ x ∈ D, x.diff ≤ 0) ∧ (∀ x ∈ I, 0 < x.diff) ∧
      (D ++ I).map (fun row => (row.key, row.diff)) = keyDiffs b := by
  obtain ⟨h1, hkd⟩ := collectRows_newBatch_ok exprs paths cs b 0 h
  have hpair : r.2.Pairwise fun x y => 0 < x.diff → 0 < y.diff := by
    have h' : (keyDiffs b).Pairwise fun x y => 0 < x.2 → 0 < y.2 := by
      rw [keyDiffs, List.pairwise_map]; exact hsplit
    rw [← hkd] at h'
    exact List.pairwise_map.1 h'
  obtain ⟨D, I, hDI, hD, hI⟩ := exists_deletions_first (·.diff) r.2 hpair
  exact ⟨h1, D, I, hDI, hD, hI, hDI ▸ hkd⟩

/-- What the batch closure's success on a batch of `New` entries, deletions first and
alternating, says: the output keys are the input keys, the caches keep their invariant, and
each expression emits what the checks ask for. -/
theorem evaluateBatch_newBatch_post (hsplit : b.Pairwise fun x y => 0 < x.2 → 0 < y.2)
    (halt : alternate live (keyDiffs b) = some live') (hinv : CachesInv exprs live cs)
    {cs' : Caches} {out : List (Option (Key × Value))} {log : List DataError}
    (h : evaluateBatch exprs paths n evs cs (newBatch b) = .ok (cs', out, log)) :
    out.map (Option.map Prod.fst) = b.map (fun e => some e.1.1) ∧ CachesInv exprs live' cs' ∧
      ∀ j e, exprs[j]? = some e → e.deterministic = false →
        (e.appendOnly = false → retractCheck (cs j) (emitted j b out) = some (cs' j)) ∧
        (e.appendOnly = true → firstCheck (cs j) (emitted j b out) = some (cs' j)) := by
  rw [evaluateBatch] at h
  cases hc : collectRows exprs paths cs 0 (newBatch b) with
  | error _ => simp only [hc, error_bind] at h; cases h
  | ok r =>
    obtain ⟨cs₁, rows⟩ := r
    obtain ⟨rfl, D, I, rfl, hD, hI, hkd⟩ := collectRows_newBatch_split exprs paths hsplit hc
    have halt' : alternate live ((D ++ I).map fun r => (r.key, r.diff)) = some live' := hkd ▸ halt
    cases hall : evaluateAll evs n (D ++ I) 0 exprs cs₁ with
    | error _ => simp only [hc, ok_bind, hall, error_bind] at h; cases h
    | ok r' =>
      obtain ⟨cs₂, cols, log₂⟩ := r'
      simp only [hc, ok_bind, hall, pure_eq_ok, Except.ok.injEq, Prod.mk.injEq] at h
      obtain ⟨rfl, rfl, rfl⟩ := h
      obtain ⟨-, -, hprops⟩ := evaluateAll_batch_post evs hD hI halt' exprs 0 cs₁ cs₂ cols log₂
        (by simpa using hinv) hall
      have hlen : (D ++ I).length = b.length := by
        simpa [keyDiffs] using congrArg List.length hkd
      refine ⟨?_, fun j e he hd => ?_, fun j e he hd => ?_⟩
      · rw [assemble_newBatch_keys cols _ b 0 hlen]
        simpa [keyDiffs, Function.comp_def] using congrArg (List.map fun x => some x.1) hkd
      · obtain ⟨col, -, -, hp⟩ := hprops j e he
        simpa using (hp hd).1
      · obtain ⟨col, hcol, hlenc, hp⟩ := hprops j e he
        rw [emitted_assemble hcol _ b 0 hkd (by simpa using hlenc), List.drop_zero]
        simpa using (hp hd).2

/-- On a batch of `New` entries, deletions first and alternating, the batch closure fails
only at `chunks(0)` or where extracting an entry's arguments fails. -/
theorem evaluateBatch_newBatch_error (hsplit : b.Pairwise fun x y => 0 < x.2 → 0 < y.2)
    (halt : alternate live (keyDiffs b) = some live') (hinv : CachesInv exprs live cs)
    {err : Error} (h : evaluateBatch exprs paths n evs cs (newBatch b) = .error err) :
    (n = 0 ∧ err = .assertion "chunk size must be non-zero") ∨
      ∃ e ∈ b, ColumnPath.extractAll paths e.1.1 e.1.2 = .error err := by
  rw [evaluateBatch] at h
  cases hc : collectRows exprs paths cs 0 (newBatch b) with
  | error _ =>
    simp only [hc, error_bind] at h; cases h
    exact .inr (collectRows_newBatch_error exprs paths cs b 0 hc)
  | ok r =>
    obtain ⟨cs₁, rows⟩ := r
    obtain ⟨rfl, D, I, rfl, hD, hI, hkd⟩ := collectRows_newBatch_split exprs paths hsplit hc
    cases hall : evaluateAll evs n (D ++ I) 0 exprs cs₁ with
    | error _ =>
      simp only [hc, ok_bind, hall, error_bind] at h; cases h
      exact .inl (evaluateAll_batch_error evs hD hI (hkd ▸ halt) exprs 0 cs₁ _
        (by simpa using hinv) hall)
    | ok r' => simp only [hc, ok_bind, hall] at h; cases h

theorem alternate_batches_cons {live : Key → Bool} {p : (ℕ → BatchEval) × List ((Key × Value) × ℤ)}
    {ps : List ((ℕ → BatchEval) × List ((Key × Value) × ℤ))}
    (h : alternate live (keyDiffs ((p :: ps).flatMap (·.2))) ≠ none) :
    ∃ l, alternate live (keyDiffs p.2) = some l ∧ alternate l (keyDiffs (ps.flatMap (·.2))) ≠ none := by
  rw [List.flatMap_cons, keyDiffs_append, alternate_append] at h
  cases ha : alternate live (keyDiffs p.2) with
  | none => simp [ha] at h
  | some l => exact ⟨l, rfl, by simpa [ha] using h⟩

/-- The batches of a run as the closure receives them: `New` entries only. -/
def newBatches (batches : List ((ℕ → BatchEval) × List ((Key × Value) × ℤ))) :
    List ((ℕ → BatchEval) × Batch) :=
  batches.map fun p => (p.1, newBatch p.2)

/-- Over a run of batches with deletions first whose rows alternate per key, the closure
fails only at `chunks(0)` or where extracting an entry's arguments fails. -/
theorem run_newBatches_error :
    ∀ (batches : List ((ℕ → BatchEval) × List ((Key × Value) × ℤ))) (cs : Caches)
      (live : Key → Bool) (err : Error),
    (∀ p ∈ batches, p.2.Pairwise fun x y => 0 < x.2 → 0 < y.2) →
    alternate live (keyDiffs (batches.flatMap (·.2))) ≠ none → CachesInv exprs live cs →
    run exprs paths n cs (newBatches batches) = .error err →
      (n = 0 ∧ err = .assertion "chunk size must be non-zero") ∨
        ∃ p ∈ batches, ∃ e ∈ p.2, ColumnPath.extractAll paths e.1.1 e.1.2 = .error err
  | [], _, _, _, _, _, _, h => by cases h
  | p :: ps, cs, live, err, hsplit, halt, hinv, h => by
    obtain ⟨live₁, h₁, halt⟩ := alternate_batches_cons halt
    simp only [newBatches, List.map_cons, run] at h
    cases hb : evaluateBatch exprs paths n p.1 cs (newBatch p.2) with
    | error _ =>
      simp only [hb, error_bind] at h; cases h
      rcases evaluateBatch_newBatch_error exprs paths p.1 (hsplit p (List.mem_cons_self _ _))
        h₁ hinv hb with h0 | ⟨e, he, hx⟩
      · exact .inl h0
      · exact .inr ⟨p, List.mem_cons_self _ _, e, he, hx⟩
    | ok r =>
      obtain ⟨cs', out, log⟩ := r
      obtain ⟨-, hinv', -⟩ := evaluateBatch_newBatch_post exprs paths p.1
        (hsplit p (List.mem_cons_self _ _)) h₁ hinv hb
      cases hr : run exprs paths n cs' (newBatches ps) with
      | error _ =>
        simp only [hb, ok_bind, newBatches] at h hr; rw [hr] at h; cases h
        rcases run_newBatches_error ps cs' live₁ err (fun q hq => hsplit q (List.mem_cons_of_mem _ hq))
          halt hinv' hr with h0 | ⟨q, hq, hx⟩
        · exact .inl h0
        · exact .inr ⟨q, List.mem_cons_of_mem _ hq, hx⟩
      | ok _ => simp only [hb, ok_bind, newBatches] at h hr; rw [hr] at h; cases h

/-- What a successful run over batches with deletions first whose rows alternate per key
says: one output per batch, each output row with the key of its input row, the caches'
invariant after each batch, and the checks over everything each expression emitted. -/
theorem run_newBatches_post :
    ∀ (batches : List ((ℕ → BatchEval) × List ((Key × Value) × ℤ))) (cs : Caches)
      (live : Key → Bool) (steps : List (Caches × List (Option (Key × Value)))),
    (∀ p ∈ batches, p.2.Pairwise fun x y => 0 < x.2 → 0 < y.2) →
    alternate live (keyDiffs (batches.flatMap (·.2))) ≠ none → CachesInv exprs live cs →
    run exprs paths n cs (newBatches batches) = .ok steps →
      steps.length = batches.length ∧
      (∀ (t : ℕ) (q : Caches × List (Option (Key × Value))) (p : (ℕ → BatchEval) × List ((Key × Value) × ℤ)),
        steps[t]? = some q → batches[t]? = some p →
        q.2.map (Option.map Prod.fst) = p.2.map fun e => some e.1.1) ∧
      (∀ (t : ℕ) (q : Caches × List (Option (Key × Value))), steps[t]? = some q → ∃ live',
        alternate live (keyDiffs ((batches.take (t + 1)).flatMap (·.2))) = some live' ∧
          CachesInv exprs live' q.1) ∧
      ∀ j e, exprs[j]? = some e → e.deterministic = false →
        (e.appendOnly = false → retractCheck (cs j) (emittedRun j batches steps) ≠ none) ∧
        (e.appendOnly = true → firstCheck (cs j) (emittedRun j batches steps) ≠ none)
  | [], _, _, steps, _, _, _, h => by
    cases h
    refine ⟨rfl, by simp, by simp, fun j e _ _ => ⟨fun _ => ?_, fun _ => ?_⟩⟩ <;>
      simp [emittedRun, retractCheck, firstCheck]
  | p :: ps, cs, live, steps, hsplit, halt, hinv, h => by
    obtain ⟨live₁, h₁, halt⟩ := alternate_batches_cons halt
    simp only [newBatches, List.map_cons, run] at h
    cases hb : evaluateBatch exprs paths n p.1 cs (newBatch p.2) with
    | error _ => simp only [hb, error_bind] at h; cases h
    | ok r =>
      obtain ⟨cs', out, log⟩ := r
      obtain ⟨hkeys, hinv', hchk⟩ := evaluateBatch_newBatch_post exprs paths p.1
        (hsplit p (List.mem_cons_self _ _)) h₁ hinv hb
      cases hr : run exprs paths n cs' (newBatches ps) with
      | error _ => simp only [hb, ok_bind, newBatches] at h hr; rw [hr] at h; cases h
      | ok steps' =>
        simp only [hb, ok_bind, newBatches] at h hr; rw [hr] at h; cases h
        obtain ⟨hlen, hkeys', hinvs', hchk'⟩ := run_newBatches_post ps cs' live₁ steps'
          (fun q hq => hsplit q (List.mem_cons_of_mem _ hq)) halt hinv' hr
        refine ⟨by simp [hlen], ?_, ?_, fun j e he hd => ⟨fun hao => ?_, fun hao => ?_⟩⟩
        · rintro (_ | t) q p' hq hp'
          · simp only [List.getElem?_cons_zero, Option.some.injEq] at hq hp'
            subst hq hp'; exact hkeys
          · exact hkeys' t q p' (by simpa using hq) (by simpa using hp')
        · rintro (_ | t) q hq
          · simp only [List.getElem?_cons_zero, Option.some.injEq] at hq
            subst hq; exact ⟨live₁, by simpa using h₁, hinv'⟩
          · obtain ⟨l, hl, hinvl⟩ := hinvs' t q (by simpa using hq)
            refine ⟨l, ?_, hinvl⟩
            rw [List.take_succ_cons, List.flatMap_cons, keyDiffs_append, alternate_append, h₁,
              Option.some_bind]
            exact hl
        · rw [emittedRun_cons, retractCheck_append, ((hchk j e he hd).1 hao), Option.some_bind]
          exact (hchk' j e he hd).1 hao
        · rw [emittedRun_cons, firstCheck_append, ((hchk j e he hd).2 hao), Option.some_bind]
          exact (hchk' j e he hd).2 hao

end Run

/-- An evaluation that answers `None` for every row. -/
def noneEval : BatchEval := ⟨fun args => args.map fun _ => .ok .none, fun _ => List.length_map _ _⟩

end Expression
end Pathway
