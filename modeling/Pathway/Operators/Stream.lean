import Pathway.Engine.Table
import Pathway.Engine.Value

/-! `table_to_stream`, `stream_to_table` and the upsert arrangement of
`maybe_persisted_upsert_collection`, one time at a time. `table_to_stream` turns each
consolidated batch of changes of a table into append-only rows `Tuple([values,
Bool(is_upsert)])`; `stream_to_table` turns the flag back into a diff, and the upsert
arrangement keeps per key the value last upserted. Persistence is off, so
`maybe_persist_with_logic` runs the logic on `New` entries and `filter_out_persisted` is the
identity. What the pipeline is for: a batch consolidates the change of a table between two
times, and the upsert state is the table, each row `v` carried as `Tuple([v, Bool(true)])`. -/
namespace Pathway
namespace Stream

/-- An entry of a batch: a record `(key, values)` with its diff. -/
abbrev Entry := (Key × Value) × ℤ

/-- The order of `sort_by_key(|&((key, ref _values), diff)| (key, -diff))`: by key, then
insertions before deletions. -/
def sortLe (a b : Entry) : Bool :=
  decide (a.1.1.val.toNat < b.1.1.val.toNat ∨ (a.1.1 = b.1.1 ∧ -a.2 ≤ -b.2))

/-- `match diff { DIFF_INSERTION => Some(true), DIFF_DELETION => Some(false), _ => None }`. -/
def isUpsert (d : ℤ) : Option Bool :=
  if d = 1 then some true else if d = -1 then some false else none

/-- The loop of `table_to_stream` over a sorted batch: a row of the key just seen is
skipped; any other row is emitted with its `is_upsert` flag and diff `+1`, or logged as a
`DuplicateKey` when its diff is neither `+1` nor `-1`. -/
def tableToStreamLoop : Option Key → List Entry → List Entry × List DataError
  | _, [] => ([], [])
  | prev, ((k, v), d) :: rest =>
    if some k = prev then tableToStreamLoop prev rest
    else
      let r := tableToStreamLoop (some k) rest
      match isUpsert d with
      | some u => (((k, .tuple [v, .bool u]), 1) :: r.1, r.2)
      | none => (r.1, .duplicateKey k :: r.2)

/-- The batch closure of `table_to_stream`. -/
def tableToStream (data : List Entry) : List Entry × List DataError :=
  tableToStreamLoop none (data.mergeSort sortLe)

/-- The closure of `stream_to_table` on one row: an insertion becomes an insertion or a
deletion by its `is_upsert` column, and anything else is logged as `ExpectedAppendOnly`. A
flag that is not a `Bool` fails `as_bool`, which the reporter receives. -/
def streamToTableRow (isUpsertPath : ColumnPath) : Entry → Except Error (Option Entry × List DataError)
  | ((k, v), d) =>
    if d = 1 then do
      let flag ← isUpsertPath.extract k v
      match flag.asBool with
      | some u => pure (some ((k, v), if u then 1 else -1), [])
      | none => throw (.reported "as_bool")
    else pure (none, [.expectedAppendOnly k])

/-- `stream_to_table` over the rows of one time. -/
def streamToTable (isUpsertPath : ColumnPath) : List Entry → Except Error (List Entry × List DataError)
  | [] => pure ([], [])
  | e :: rest => do
    let r ← streamToTableRow isUpsertPath e
    let rs ← streamToTable isUpsertPath rest
    pure (r.1.toList ++ rs.1, r.2 ++ rs.2)

/-- The map of `maybe_persisted_upsert_collection` into upsert commands: an insertion sets
the key's value, a deletion removes it, and any other diff fails `assert_eq!`. -/
def upsertCommand : Entry → Except Error (Key × Option Value)
  | ((k, v), d) =>
    if d = 1 then pure (k, some v)
    else if d = -1 then pure (k, none)
    else throw (.assertion "assert_eq!(diff, DIFF_DELETION)")

/-- The upsert arrangement applying commands in order: `Some(v)` sets the key's value,
`None` removes the key. -/
def applyUpserts (st : Key → Option Value) : List (Key × Option Value) → Key → Option Value
  | [] => st
  | (k, o) :: rest => applyUpserts (fun k' => if k' = k then o else st k') rest

/-- One time of `stream_to_table ∘ table_to_stream`: the upsert state after it and what was
logged. -/
def roundTripStep (isUpsertPath : ColumnPath) (st : Key → Option Value) (data : List Entry) :
    Except Error ((Key → Option Value) × List DataError) := do
  let s := tableToStream data
  let rows ← streamToTable isUpsertPath s.1
  let cmds ← rows.1.mapM upsertCommand
  pure (applyUpserts st cmds, s.2 ++ rows.2)

/-- The pipeline over the batches of successive times. -/
def roundTrip (isUpsertPath : ColumnPath) :
    (Key → Option Value) → List (List Entry) → Except Error (List ((Key → Option Value) × List DataError))
  | _, [] => pure []
  | st, b :: bs => do
    let r ← roundTripStep isUpsertPath st b
    let rest ← roundTrip isUpsertPath r.1 bs
    pure (r :: rest)

/-- A batch consolidates a collection: one entry per record, no zero diff, and the same
multiplicities. -/
structure Consolidates (b : List Entry) (z : ZSet (Key × Value)) : Prop where
  nodup : (b.map Prod.fst).Nodup
  ne_zero : ∀ e ∈ b, e.2 ≠ 0
  count_eq : ∀ x, ZSet.count b x = ZSet.count z x

/-- The batches of a table's history: each consolidates the change from the snapshot
before it. -/
def BatchesOf : ZSet (Key × Value) → List (ZSet (Key × Value)) → List (List Entry) → Prop
  | _, [], [] => True
  | prev, T :: Ts, b :: bs => Consolidates b (T ++ ZSet.negate prev) ∧ BatchesOf T Ts bs
  | _, _, _ => False

/-- The upsert state that carries a table. -/
def tableState (T : ZSet (Key × Value)) (k : Key) : Option Value :=
  (ZSet.lookup T k).map fun v => .tuple [v, .bool true]

/-- The first entry of each run of one key, after a leading run of `prev`. -/
def firstOfKeys : Option Key → List Entry → List Entry
  | _, [] => []
  | prev, e :: rest =>
    if some e.1.1 = prev then firstOfKeys prev rest else e :: firstOfKeys (some e.1.1) rest

/-- The row `table_to_stream` emits for an entry it keeps. -/
def upsertRow (e : Entry) : Entry := ((e.1.1, .tuple [e.1.2, .bool (decide (e.2 = 1))]), 1)

theorem sortLe_trans (a b c : Entry) (h₁ : sortLe a b) (h₂ : sortLe b c) : sortLe a c := by
  simp only [sortLe, decide_eq_true_eq] at *
  rcases h₁ with h₁ | ⟨h₁, h₁'⟩ <;> rcases h₂ with h₂ | ⟨h₂, h₂'⟩
  · exact .inl (by omega)
  · rw [← h₂]; exact .inl h₁
  · rw [h₁]; exact .inl h₂
  · exact .inr ⟨h₁.trans h₂, by omega⟩

theorem sortLe_total (a b : Entry) : sortLe a b || sortLe b a := by
  simp only [sortLe, Bool.or_eq_true, decide_eq_true_eq]
  rcases lt_trichotomy a.1.1.val.toNat b.1.1.val.toNat with h | h | h
  · exact .inl (.inl h)
  · have hk := Key.eq_of_toNat_eq h
    rcases le_total (-a.2) (-b.2) with hd | hd
    · exact .inl (.inr ⟨hk, hd⟩)
    · exact .inr (.inr ⟨hk.symm, hd⟩)
  · exact .inr (.inl h)

/-- With every diff `+1` or `-1`, the loop emits the first row of each key and logs
nothing. -/
theorem tableToStreamLoop_eq : ∀ (prev : Option Key) (L : List Entry),
    (∀ e ∈ L, e.2 = 1 ∨ e.2 = -1) → tableToStreamLoop prev L = ((firstOfKeys prev L).map upsertRow, [])
  | _, [], _ => rfl
  | prev, ((k, v), d) :: rest, h => by
    simp only [List.forall_mem_cons] at h
    rw [tableToStreamLoop, firstOfKeys]
    split_ifs with hk
    · exact tableToStreamLoop_eq prev rest h.2
    · rw [tableToStreamLoop_eq (some k) rest h.2]
      rcases h.1 with hd | hd <;> simp [isUpsert, hd, upsertRow]

/-- On a batch sorted by key, the kept entries of a key are the first entry of the key,
unless the key is the one skipped. -/
theorem firstOfKeys_filter (k : Key) : ∀ (prev : Option Key) (L : List Entry),
    L.Pairwise (fun a b => a.1.1.val.toNat ≤ b.1.1.val.toNat) →
    (∀ p, prev = some p → ∀ x ∈ L, p.val.toNat ≤ x.1.1.val.toNat) →
    (firstOfKeys prev L).filter (fun e => e.1.1 = k) =
      if prev = some k then [] else (L.find? fun e => e.1.1 = k).toList
  | prev, [], _, _ => by split <;> rfl
  | prev, e :: rest, hs, hp => by
    rw [List.pairwise_cons] at hs
    have hrest := firstOfKeys_filter k (some e.1.1) rest hs.2 fun p hp' x hx => by
      cases hp'; exact hs.1 x hx
    rw [firstOfKeys]
    by_cases he : some e.1.1 = prev
    · subst he
      rw [if_pos rfl, firstOfKeys_filter k _ rest hs.2 fun p hp' x hx =>
        hp p hp' x (List.mem_cons_of_mem _ hx)]
      by_cases hek : e.1.1 = k
      · simp [hek]
      · simp [hek, Ne.symm hek]
    · rw [if_neg he, List.filter_cons, hrest]
      by_cases hek : e.1.1 = k
      · subst hek; simp [Ne.symm he]
      · have hnone : rest.find? (fun e => e.1.1 = k) = none ∨ prev ≠ some k := by
          by_cases hpk : prev = some k
          · -- `k` was skipped, so it is below the head's key and below everything after it
            refine .inl (List.find?_eq_none.2 fun x hx hxk => ?_)
            have h1 := hp k hpk e (List.mem_cons_self _ _)
            have h2 := hs.1 x hx
            have h3 : k.val.toNat ≠ e.1.1.val.toNat := fun h => hek (Key.eq_of_toNat_eq h).symm
            have h4 : x.1.1 = k := by simpa using hxk
            rw [h4] at h2; omega
          · exact .inr hpk
        rcases hnone with hn | hn
        · simp [hek, hn]
        · simp [hek, hn, List.find?_cons]

/-- The first entry of a key in a batch sorted by `sortLe` has the greatest diff of the
key. -/
theorem find?_sorted_max {L : List Entry} (hs : L.Pairwise fun a b => sortLe a b) {k : Key}
    {e : Entry} (he : L.find? (fun e => e.1.1 = k) = some e) :
    ∀ e' ∈ L, e'.1.1 = k → e'.2 ≤ e.2 := by
  obtain ⟨hek, as, bs, rfl, has⟩ := List.find?_eq_some.1 he
  intro e' he' hk
  rcases List.mem_append.1 he' with h | h
  · simpa [hk] using has e' h
  · rcases List.mem_cons.1 h with rfl | h
    · exact le_rfl
    · have := List.rel_of_pairwise_cons (List.pairwise_append.1 hs).2.1 h
      simp only [sortLe, decide_eq_true_eq] at this hek
      rcases this with h' | ⟨-, h'⟩
      · rw [hk, hek] at h'; omega
      · omega

section Path
variable (isUpsertPath : ColumnPath)
  (hpath : ∀ k v u, isUpsertPath.extract k (.tuple [v, .bool u]) = .ok (.bool u))
include hpath

/-- `stream_to_table` turns the rows `table_to_stream` emitted back into their diffs. -/
theorem streamToTable_upsertRows : ∀ S : List Entry, (∀ e ∈ S, e.2 = 1 ∨ e.2 = -1) →
    streamToTable isUpsertPath (S.map upsertRow) = .ok (S.map fun e => ((upsertRow e).1, e.2), [])
  | [], _ => rfl
  | e :: S, h => by
    simp only [List.forall_mem_cons] at h
    have hrow : streamToTableRow isUpsertPath (upsertRow e) = .ok (some ((upsertRow e).1, e.2), []) := by
      rcases h.1 with hd | hd <;> simp [upsertRow, streamToTableRow, hpath, hd]
    simp [streamToTable, hrow, streamToTable_upsertRows S h.2]

end Path

theorem mapM_upsertCommand : ∀ S : List Entry, (∀ e ∈ S, e.2 = 1 ∨ e.2 = -1) →
    (S.map fun e => ((upsertRow e).1, e.2)).mapM upsertCommand =
      .ok (S.map fun e => (e.1.1, if e.2 = 1 then some (.tuple [e.1.2, .bool true]) else none))
  | [], _ => rfl
  | e :: S, h => by
    simp only [List.forall_mem_cons] at h
    rw [List.map_cons, List.mapM_cons, mapM_upsertCommand S h.2]
    rcases h.1 with hd | hd <;> simp [upsertCommand, upsertRow, hd]

/-- A key no command names keeps its value. -/
theorem applyUpserts_of_filter_nil {k : Key} :
    ∀ (st : Key → Option Value) (cmds : List (Key × Option Value)),
    cmds.filter (fun c => c.1 = k) = [] → applyUpserts st cmds k = st k
  | _, [], _ => rfl
  | st, (k', o) :: rest, h => by
    have hk : k' ≠ k := fun he => by simp [he] at h
    rw [applyUpserts, applyUpserts_of_filter_nil _ rest (by simpa [List.filter_cons, hk] using h)]
    simp [Ne.symm hk]

/-- A key one command names takes that command's value. -/
theorem applyUpserts_of_filter_singleton {k : Key} {o : Option Value} :
    ∀ (st : Key → Option Value) (cmds : List (Key × Option Value)),
    cmds.filter (fun c => c.1 = k) = [(k, o)] → applyUpserts st cmds k = o
  | _, [], h => by cases h
  | st, (k', o') :: rest, h => by
    rw [applyUpserts]
    by_cases hk : k' = k
    · subst hk
      simp only [List.filter_cons, decide_True, if_true, List.cons.injEq, Prod.mk.injEq,
        true_and] at h
      rw [applyUpserts_of_filter_nil _ rest h.2, h.1]; simp
    · rw [applyUpserts_of_filter_singleton _ rest (by simpa [List.filter_cons, hk] using h)]

theorem firstOfKeys_sublist : ∀ (prev : Option Key) (L : List Entry), (firstOfKeys prev L).Sublist L
  | _, [] => List.Sublist.slnil
  | prev, e :: rest => by
    rw [firstOfKeys]
    split
    · exact (firstOfKeys_sublist prev rest).cons e
    · exact (firstOfKeys_sublist _ rest).cons₂ e

/-- The row `table_to_stream` pushes for the entry it keeps of a key: the values with the
`is_upsert` flag and diff `+1`, when the entry's diff is `+1` or `-1`. -/
def streamRow (e : Entry) : Option Entry :=
  (isUpsert e.2).map fun u => ((e.1.1, .tuple [e.1.2, .bool u]), 1)

/-- The batch closure of `table_to_stream` with the batch's time, which every row it pushes
carries. -/
def tableToStreamBatch {τ : Type} (time : τ) (data : List Entry) :
    List ((Key × Value) × τ × ℤ) × List DataError :=
  ((tableToStream data).1.map fun e => (e.1, time, e.2), (tableToStream data).2)

/-- The loop emits the row of each entry it keeps. -/
theorem tableToStreamLoop_fst : ∀ (prev : Option Key) (L : List Entry),
    (tableToStreamLoop prev L).1 = (firstOfKeys prev L).filterMap streamRow
  | _, [] => rfl
  | prev, ((k, v), d) :: rest => by
    rw [tableToStreamLoop, firstOfKeys]
    by_cases hk : some k = prev
    · rw [if_pos hk, if_pos hk]
      exact tableToStreamLoop_fst prev rest
    · rw [if_neg hk, if_neg hk, List.filterMap_cons, ← tableToStreamLoop_fst (some k) rest]
      unfold streamRow
      cases isUpsert d <;> rfl

/-- The rows of one key among the emitted rows: those of its kept entries. -/
theorem filter_filterMap_streamRow (k : Key) (L : List Entry) :
    (L.filterMap streamRow).filter (fun e => e.1.1 = k) =
      (L.filter fun e => e.1.1 = k).filterMap streamRow := by
  rw [List.filter_filterMap, List.filterMap_filter]
  refine List.filterMap_congr fun e _ => ?_
  unfold streamRow
  cases isUpsert e.2 <;> by_cases hk : e.1.1 = k <;> simp [hk]

/-- The rows of key `k` of any batch: one for its first entry in `(key, -diff)` order when
that entry's diff is `+1` or `-1`, flagged as an upsert when it is `+1`, and none
otherwise. -/
theorem filter_tableToStreamBatch {τ : Type} (time : τ) (data : List Entry) (k : Key) :
    (tableToStreamBatch time data).1.filter (fun r => r.1.1 = k) =
      match (data.mergeSort sortLe).find? fun e => e.1.1 = k with
      | some e => if e.2 = 1 ∨ e.2 = -1 then
          [((k, .tuple [e.1.2, .bool (decide (e.2 = 1))]), time, 1)] else []
      | none => [] := by
  have hsorted : (data.mergeSort sortLe).Pairwise fun a c => sortLe a c :=
    List.sorted_mergeSort sortLe_trans sortLe_total data
  have hfilter := firstOfKeys_filter k none _ (hsorted.imp fun {a c} h => by
    simp only [sortLe, decide_eq_true_eq] at h
    rcases h with h | ⟨h, -⟩
    · omega
    · rw [h]) (by simp)
  rw [if_neg (by simp)] at hfilter
  rw [tableToStreamBatch, tableToStream, tableToStreamLoop_fst, List.filter_map,
    show ((fun r : (Key × Value) × τ × ℤ => decide (r.1.1 = k)) ∘ fun e : Entry => (e.1, time, e.2)) =
      fun e => decide (e.1.1 = k) from rfl, filter_filterMap_streamRow, hfilter]
  cases hf : (data.mergeSort sortLe).find? fun e => e.1.1 = k with
  | none => rfl
  | some e =>
    have hek : e.1.1 = k := by simpa using List.find?_some hf
    unfold streamRow isUpsert
    by_cases h1 : e.2 = 1
    · simp [h1, hek]
    · by_cases h2 : e.2 = -1 <;> simp [h1, h2, hek]

section Step
variable {prev T : ZSet (Key × Value)} {b : List Entry}

/-- Every entry of a batch between two tables inserts a row of the new one or deletes a row
of the old one. -/
theorem Consolidates.entry (hc : Consolidates b (T ++ ZSet.negate prev)) (hT : ZSet.IsTable T)
    (hP : ZSet.IsTable prev) {e : Entry} (he : e ∈ b) :
    (e.2 = 1 ∧ ZSet.count T e.1 = 1 ∧ ZSet.count prev e.1 = 0) ∨
      (e.2 = -1 ∧ ZSet.count T e.1 = 0 ∧ ZSet.count prev e.1 = 1) := by
  have h := hc.count_eq e.1
  rw [ZSet.count_of_mem_nodup hc.nodup he, ZSet.count_append, ZSet.count_negate] at h
  have h0 := hc.ne_zero e he
  rcases hT.isSet e.1 with h1 | h1 <;> rcases hP.isSet e.1 with h2 | h2 <;> omega

/-- A record that changes between the tables has its entry in the batch. -/
theorem Consolidates.mem (hc : Consolidates b (T ++ ZSet.negate prev)) {x : Key × Value}
    (hx : ZSet.count T x - ZSet.count prev x ≠ 0) : (x, ZSet.count T x - ZSet.count prev x) ∈ b := by
  have hb : ZSet.count b x = ZSet.count T x - ZSet.count prev x := by
    rw [hc.count_eq, ZSet.count_append, ZSet.count_negate]; omega
  obtain ⟨e, he, rfl⟩ := List.mem_map.1 (by_contra fun h => hx (hb ▸ ZSet.count_eq_zero_of_not_mem h))
  rw [← hb, ZSet.count_of_mem_nodup hc.nodup he]
  exact he

/-- `table_to_stream` on a batch between two tables emits only insertions and logs
nothing. -/
theorem tableToStream_of_consolidates (hc : Consolidates b (T ++ ZSet.negate prev))
    (hT : ZSet.IsTable T) (hP : ZSet.IsTable prev) :
    tableToStream b = ((firstOfKeys none (b.mergeSort sortLe)).map upsertRow, []) :=
  tableToStreamLoop_eq none _ fun e he => by
    rcases hc.entry hT hP ((List.mergeSort_perm b sortLe).mem_iff.1 he) with h | h
    · exact .inl h.1
    · exact .inr h.1

/-- One time of the pipeline takes the upsert state of the old table to that of the new one
and logs nothing. -/
theorem roundTripStep_eq (isUpsertPath : ColumnPath)
    (hpath : ∀ k v u, isUpsertPath.extract k (.tuple [v, .bool u]) = .ok (.bool u))
    (hc : Consolidates b (T ++ ZSet.negate prev)) (hT : ZSet.IsTable T) (hP : ZSet.IsTable prev) :
    roundTripStep isUpsertPath (tableState prev) b = .ok (tableState T, []) := by
  have hperm := List.mergeSort_perm b sortLe
  have hsorted : (b.mergeSort sortLe).Pairwise fun a c => sortLe a c :=
    List.sorted_mergeSort sortLe_trans sortLe_total b
  rw [roundTripStep, tableToStream_of_consolidates hc hT hP]
  generalize b.mergeSort sortLe = L at hperm hsorted ⊢
  have hmem : ∀ e ∈ L, e ∈ b := fun e he => hperm.mem_iff.1 he
  have hpm : ∀ e ∈ firstOfKeys none L, e.2 = 1 ∨ e.2 = -1 := fun e he => by
    rcases hc.entry hT hP (hmem e ((firstOfKeys_sublist none L).subset he)) with h | h
    · exact .inl h.1
    · exact .inr h.1
  dsimp only
  rw [streamToTable_upsertRows isUpsertPath hpath _ hpm, ok_bind, mapM_upsertCommand _ hpm, ok_bind]
  simp only [pure_eq_ok, List.append_nil, Except.ok.injEq, Prod.mk.injEq, and_true]
  funext k
  have hfilter := firstOfKeys_filter k none L (hsorted.imp fun {a c} h => by
    simp only [sortLe, decide_eq_true_eq] at h
    rcases h with h | ⟨h, -⟩
    · omega
    · rw [h]) (by simp)
  rw [if_neg (by simp)] at hfilter
  cases hf : L.find? (fun e => e.1.1 = k) with
  | none =>
    -- no entry of `k`: the key keeps its row
    rw [applyUpserts_of_filter_nil _ _ (by simp [List.filter_map, Function.comp_def, hfilter, hf])]
    unfold tableState
    rw [hP.lookup_congr hT fun v => ?_]
    by_contra hne
    have := List.find?_eq_none.1 hf _ (hperm.mem_iff.2 (hc.mem (x := (k, v)) (by omega)))
    simp at this
  | some e =>
    have hek : e.1.1 = k := by simpa using List.find?_some hf
    have heb := hmem e (List.mem_of_find?_eq_some hf)
    rw [applyUpserts_of_filter_singleton
      (o := if e.2 = 1 then some (.tuple [e.1.2, .bool true]) else none) _ _
      (by simp [List.filter_map, Function.comp_def, hfilter, hf, hek])]
    rcases hc.entry hT hP heb with ⟨hd, hT1, -⟩ | ⟨hd, hT0, hP1⟩
    · -- the first entry inserts: the key takes the new row
      have : ZSet.lookup T k = some e.1.2 := hT.lookup_eq_some.2 (by rw [← hek]; exact hT1)
      simp [tableState, hd, this]
    · -- the first entry deletes: the new table has no row of the key
      simp only [hd, if_neg (by decide : (-1 : ℤ) ≠ 1), tableState]
      have hT0' : ZSet.count T (k, e.1.2) = 0 := by rw [← hek]; exact hT0
      have hP1' : ZSet.count prev (k, e.1.2) = 1 := by rw [← hek]; exact hP1
      cases hl : ZSet.lookup T k with
      | none => rfl
      | some w =>
        have hw := hT.lookup_eq_some.1 hl
        rcases hP.isSet (k, w) with h0 | h1
        · -- a new row of the key would have an insertion, which sorts first
          have hin := hc.mem (x := (k, w)) (by omega)
          have := find?_sorted_max hsorted hf _ (hperm.mem_iff.2 hin) rfl
          simp [hw, h0] at this; omega
        · -- the old row of the key is the deleted one
          have hvw : e.1.2 = w := hP.unique k e.1.2 w (by omega) (by omega)
          rw [← hvw] at hw; omega

end Step

/-- The pipeline over the batches of a history of a table yields, after every time, the
table's snapshot. -/
theorem roundTrip_eq (isUpsertPath : ColumnPath)
    (hpath : ∀ k v u, isUpsertPath.extract k (.tuple [v, .bool u]) = .ok (.bool u)) :
    ∀ (prev : ZSet (Key × Value)) (history : List (ZSet (Key × Value))) (batches : List (List Entry)),
    ZSet.IsTable prev → (∀ T ∈ history, ZSet.IsTable T) → BatchesOf prev history batches →
      roundTrip isUpsertPath (tableState prev) batches = .ok (history.map fun T => (tableState T, []))
  | _, [], [], _, _, _ => rfl
  | prev, T :: Ts, b :: bs, hP, hT, ⟨hc, hbs⟩ => by
    have hT₀ := hT T (List.mem_cons_self _ _)
    rw [roundTrip, roundTripStep_eq isUpsertPath hpath hc hT₀ hP, ok_bind,
      roundTrip_eq isUpsertPath hpath T Ts bs hT₀ (fun T' h => hT T' (List.mem_cons_of_mem _ h)) hbs]
    rfl
  | _, [], _ :: _, _, _, h | _, _ :: _, [], _, _, h => h.elim

theorem BatchesOf.consolidates : ∀ {prev : ZSet (Key × Value)} {history : List (ZSet (Key × Value))}
    {batches : List (List Entry)}, BatchesOf prev history batches → ZSet.IsTable prev →
    (∀ T ∈ history, ZSet.IsTable T) →
      ∀ b ∈ batches, ∃ p T, ZSet.IsTable p ∧ ZSet.IsTable T ∧ Consolidates b (T ++ ZSet.negate p)
  | _, [], [], _, _, _ => by simp
  | prev, T :: Ts, b :: bs, ⟨hc, hbs⟩, hP, hT => by
    have hT₀ := hT T (List.mem_cons_self _ _)
    rintro b' (_ | ⟨_, hb'⟩)
    · exact ⟨prev, T, hP, hT₀, hc⟩
    · exact hbs.consolidates hT₀ (fun T' h => hT T' (List.mem_cons_of_mem _ h)) b' hb'
  | _, [], _ :: _, h, _, _ | _, _ :: _, [], h, _, _ => h.elim

/-- `stream_to_table ∘ table_to_stream` over any history of a table with at most one row per
key: `table_to_stream` emits only insertions and logs no `DuplicateKey`, and after every
time the upsert state is the table's snapshot, each row `v` carried as
`Tuple([v, Bool(true)])`, with nothing logged (no `ExpectedAppendOnly`). -/
theorem roundTrip_reproduces_table (isUpsertPath : ColumnPath)
    (hpath : ∀ k v u, isUpsertPath.extract k (.tuple [v, .bool u]) = .ok (.bool u))
    (history : List (ZSet (Key × Value))) (batches : List (List Entry))
    (htables : ∀ T ∈ history, ZSet.IsTable T) (hbatches : BatchesOf [] history batches) :
    (∀ b ∈ batches, (tableToStream b).2 = [] ∧ ∀ e ∈ (tableToStream b).1, e.2 = 1) ∧
    roundTrip isUpsertPath (fun _ => none) batches =
      .ok (history.map fun T => (fun k => (ZSet.lookup T k).map fun v => .tuple [v, .bool true], [])) := by
  refine ⟨fun b hb => ?_, ?_⟩
  · obtain ⟨p, T, hp, hT, hc⟩ := hbatches.consolidates ZSet.isTable_nil htables b hb
    rw [tableToStream_of_consolidates hc hT hp]
    exact ⟨rfl, fun e he => by
      obtain ⟨e', -, rfl⟩ := List.mem_map.1 he
      rfl⟩
  · have h := roundTrip_eq isUpsertPath hpath [] history batches ZSet.isTable_nil htables hbatches
    have h0 : tableState [] = fun _ => none := rfl
    rw [h0] at h
    exact h

/-- The path of the flag `table_to_stream` adds: the second value of the row. -/
def flagPath : ColumnPath :=
  ⟨fun _ v => match v with
    | .tuple [_, flag] => .ok flag
    | _ => .error (.reported "is_upsert")⟩

/-- A row inserted at one time and deleted at the next. -/
def insertDeleteHistory : List (ZSet (Key × Value)) := [[((0, .int 5), 1)], []]

/-- The consolidated batches of `insertDeleteHistory`. -/
def insertDeleteBatches : List (List Entry) := [[((0, .int 5), 1)], [((0, .int 5), -1)]]

theorem roundTrip_reproduces_table_insertDelete :
    (∀ k v u, flagPath.extract k (.tuple [v, .bool u]) = .ok (.bool u)) ∧
    (∀ T ∈ insertDeleteHistory, ZSet.IsTable T) ∧
    BatchesOf [] insertDeleteHistory insertDeleteBatches ∧
    ((∀ b ∈ insertDeleteBatches, (tableToStream b).2 = [] ∧ ∀ e ∈ (tableToStream b).1, e.2 = 1) ∧
    roundTrip flagPath (fun _ => none) insertDeleteBatches =
      .ok (insertDeleteHistory.map fun T =>
        (fun k => (ZSet.lookup T k).map fun v => .tuple [v, .bool true], []))) :=
  have hpath : ∀ k v u, flagPath.extract k (.tuple [v, .bool u]) = .ok (.bool u) :=
    fun _ _ _ => rfl
  have htables : ∀ T ∈ insertDeleteHistory, ZSet.IsTable T := by
    simp only [insertDeleteHistory, List.mem_cons, List.mem_singleton, forall_eq_or_imp,
      forall_eq, List.not_mem_nil, or_false]
    refine ⟨⟨fun a => ?_, fun k v w hv hw => ?_⟩, ZSet.isTable_nil⟩
    · by_cases h : ((0 : Key), Value.int 5) = a <;> simp [h]
    · by_cases h : (0 : Key) = k <;> simp_all
  have hbatches : BatchesOf [] insertDeleteHistory insertDeleteBatches :=
    ⟨⟨by decide, by decide, fun x => by simp [ZSet.negate]⟩,
      ⟨by decide, by decide, fun x => by simp [ZSet.negate]⟩, trivial⟩
  ⟨hpath, htables, hbatches, roundTrip_reproduces_table flagPath hpath _ _ htables hbatches⟩

/-- `table_to_stream` emits at most one row per key of any batch, even one with several
entries of a key, each row with diff `+1` and the batch's time: a key has a row exactly when
its first entry in `(key, -diff)` order has diff `+1` or `-1`, and the row is flagged as an
upsert exactly when that diff is `+1`. -/
theorem table_to_stream_one_row_per_key {τ : Type} (time : τ) (data : List Entry) :
    ((tableToStreamBatch time data).1.map fun r => r.1.1).Nodup ∧
    (∀ r ∈ (tableToStreamBatch time data).1, r.2 = (time, 1)) ∧
    ∀ k, (tableToStreamBatch time data).1.filter (fun r => r.1.1 = k) =
      match (data.mergeSort sortLe).find? fun e => e.1.1 = k with
      | some e => if e.2 = 1 ∨ e.2 = -1 then
          [((k, .tuple [e.1.2, .bool (decide (e.2 = 1))]), time, 1)] else []
      | none => [] := by
  refine ⟨List.nodup_iff_count_le_one.2 fun k => ?_, fun r hr => ?_,
    filter_tableToStreamBatch time data⟩
  · rw [List.count_eq_countP, List.countP_map, List.countP_eq_length_filter]
    have hlen : (List.filter ((fun x => x == k) ∘ fun r => r.1.1) (tableToStreamBatch time data).1).length =
        ((tableToStreamBatch time data).1.filter fun r => r.1.1 = k).length := by
      congr 1
    rw [hlen, filter_tableToStreamBatch]
    split
    · split <;> simp
    · simp
  · obtain ⟨e, he, rfl⟩ := List.mem_map.1 hr
    rw [tableToStream, tableToStreamLoop_fst] at he
    obtain ⟨e', -, he'⟩ := List.mem_filterMap.1 he
    unfold streamRow at he'
    obtain ⟨u, -, rfl⟩ := Option.map_eq_some'.1 he'
    rfl

theorem table_to_stream_one_row_per_key_duplicates :
    ((tableToStreamBatch () [(((1 : Key), .int 5), -1), ((1, .int 6), 1), ((2, .int 7), 2)]).1.map
      fun r => r.1.1).Nodup ∧
    ∀ r ∈ (tableToStreamBatch () [(((1 : Key), .int 5), -1), ((1, .int 6), 1),
      ((2, .int 7), 2)]).1, r.2 = ((), 1) :=
  ⟨(table_to_stream_one_row_per_key () _).1, (table_to_stream_one_row_per_key () _).2.1⟩

end Stream
end Pathway
