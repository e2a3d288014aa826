import Pathway.Operators.Ix

/-! The operators that restrict a table to a set of keys, at one time: `restrict_column`,
`intersect_tables`, `subtract_table` and `concat_tables`. The keys of a table are
`values().map(|(key, _)| key)`; arranged, every key carries `()`. Persistence is off:
`filter_out_persisted` returns its input. -/
namespace Pathway
namespace Universe
open ZSet

/-- `Table::keys`. -/
def keysOf (z : ZSet Row) : ZSet Key := ZSet.map Prod.fst z

/-- Keys arranged with unit values (`KeysArranged`). -/
def arrangeKeys (ks : ZSet Key) : ZSet (Key × Unit) := ZSet.map (·, ()) ks

/-- `restrict_column`: the column itself when it is over the universe already (`sameUniverse`:
the handles are equal), otherwise the rows of its values whose key is in the universe,
checked against the universe's keys unless asserts are ignored. -/
def restrictColumn (ignoreAsserts sameUniverse : Bool) (universeKeys : ZSet Key)
    (columnValues : ZSet Row) : ZSet Row × List DataError :=
  if sameUniverse then (columnValues, [])
  else
    let newValues := joinCore (fun k (_ : Unit) v => [(k, v)]) (arrangeKeys universeKeys)
      columnValues
    (newValues,
      if ignoreAsserts then [] else Ix.assertInputKeysMatchOutputKeys universeKeys newValues)

/-- One pass of the loop of `intersect_tables` over the other tables' keys. -/
def intersectStep (restrictedKeys : Option (ZSet (Key × Unit))) (other : ZSet Row) :
    Option (ZSet (Key × Unit)) :=
  match restrictedKeys with
  | some rk => some (joinCore (fun k (_ _ : Unit) => [(k, ())]) rk (arrangeKeys (keysOf other)))
  | none => some (arrangeKeys (keysOf other))

/-- `intersect_tables`: the rows of `A` whose key is a key of every other table; `A` itself
when there is no other table. -/
def intersectTables (A : ZSet Row) (others : List (ZSet Row)) : ZSet Row :=
  match others.foldl intersectStep none with
  | some rk => joinCore (fun k v (_ : Unit) => [(k, v)]) A rk
  | none => A

/-- `subtract_table`: the rows of `A` less those whose key is a key of `B`. -/
def subtractTable (A B : ZSet Row) : ZSet Row :=
  A ++ negate (joinCore (fun k v (_ : Unit) => [(k, v)]) A (arrangeKeys (keysOf B)))

/-- `concat_tables`: `concatenate` of the tables' values. -/
def concatTables (tables : List (ZSet Row)) : ZSet Row := tables.flatten

theorem count_arrangeKeys (ks : ZSet Key) (k : Key) : count (arrangeKeys ks) (k, ()) = count ks k :=
  count_map_of_injective (fun _ _ h => (Prod.mk.inj h).1) ks k

theorem isTable_arrangeKeys {ks : ZSet Key} (h : IsSet ks) : IsTable (arrangeKeys ks) :=
  ⟨fun ⟨k, ()⟩ => count_arrangeKeys ks k ▸ h k, fun _ _ _ _ _ => rfl⟩

theorem isSome_lookup_arrangeKeys (ks : ZSet Key) (k : Key) :
    (lookup (arrangeKeys ks) k).isSome ↔ count ks k ≠ 0 := by
  rw [isSome_lookup]
  simp only [List.mem_map, mem_support]
  constructor
  · rintro ⟨⟨k, ⟨⟩⟩, h, rfl⟩
    rwa [count_arrangeKeys] at h
  · exact fun h => ⟨(k, ()), by rwa [count_arrangeKeys], rfl⟩

theorem keysOf_equiv {B : ZSet Row} (hB : IsTable B) :
    Equiv (keysOf B) (ofList ((support B).map Prod.fst)) := by
  have h := hB.isSet.equiv_ofList.map Prod.fst
  rwa [map_ofList] at h

/-- The keys of a table: each key of a row once. -/
theorem count_keysOf {B : ZSet Row} (hB : IsTable B) (k : Key) :
    count (keysOf B) k = if (lookup B k).isSome then 1 else 0 := by
  rw [count_of_equiv_ofList hB.nodup_keys (keysOf_equiv hB)]
  simp only [isSome_lookup]

theorem isSet_keysOf {B : ZSet Row} (hB : IsTable B) : IsSet (keysOf B) := fun k => by
  rw [count_keysOf hB]
  split_ifs <;> simp

/-- Arranged keys of a table have a row exactly at the table's keys. -/
theorem isSome_lookup_keys {B : ZSet Row} (hB : IsTable B) (k : Key) :
    (lookup (arrangeKeys (keysOf B)) k).isSome = (lookup B k).isSome := by
  rw [Bool.eq_iff_iff, isSome_lookup_arrangeKeys, count_keysOf hB]
  split_ifs with h <;> simp [h]

/-- `join_core` of a collection holding every row at most once with a table of keys: the rows
whose key is there. -/
theorem joinCore_keys {β : Type} [DecidableEq β] {A : ZSet (Key × β)} {T : ZSet (Key × Unit)}
    (hA : IsSet A) (hT : IsTable T) :
    Equiv (joinCore (fun k v (_ : Unit) => [(k, v)]) A T)
      (ofList ((support A).filter fun a => (lookup T a.1).isSome)) := by
  refine (hA.equiv_ofList.joinCore (ZSet.Equiv.refl T)).trans
    ((hT.joinCore_equiv (fun k v (_ : Unit) => (k, v)) _).trans (equiv_ofList_of_perm (.of_eq ?_)))
  induction support A with
  | nil => rfl
  | cons a l ih => cases h : lookup T a.1 <;> simp [h, ih]

/-- `restrict_column` of a table over a universe: the rows whose key is in the universe, on the
join path, and on the fast path when the column's keys are in the universe. -/
theorem restrictColumn_eq (ignoreAsserts sameUniverse : Bool) {U : ZSet Key} {c : ZSet Row}
    (hU : IsSet U) (hc : IsTable c) (hfast : sameUniverse = true → ∀ r ∈ support c, count U r.1 ≠ 0) :
    Equiv (restrictColumn ignoreAsserts sameUniverse U c).1
      (ofList ((support c).filter fun r => count U r.1 ≠ 0)) := by
  by_cases hs : sameUniverse = true
  · simp only [restrictColumn, hs, if_true]
    rw [List.filter_eq_self.2 fun r hr => by simpa using hfast hs r hr]
    exact hc.isSet.equiv_ofList
  simp only [restrictColumn, hs, Bool.false_eq_true, if_false]
  refine ((isTable_arrangeKeys hU).isSet.equiv_ofList.joinCore (ZSet.Equiv.refl c)).trans
    ((hc.joinCore_equiv (fun k (_ : Unit) v => (k, v)) _).trans (equiv_ofList_of_perm ?_))
  refine (List.perm_ext_iff_of_nodup (List.Nodup.filterMap (fun a a' b ha ha' => ?_)
    (nodup_support _)) ((nodup_support c).filter _)).2 fun ⟨k, v⟩ => ?_
  · obtain ⟨v, -, rfl⟩ := Option.map_eq_some'.1 ha
    obtain ⟨v', -, h⟩ := Option.map_eq_some'.1 ha'
    exact Prod.ext (congrArg Prod.fst h).symm rfl
  · simp only [List.mem_filterMap, Option.map_eq_some', Prod.mk.injEq, List.mem_filter,
      mem_support, decide_eq_true_eq]
    constructor
    · rintro ⟨⟨k', ⟨⟩⟩, ha, v', hv, rfl, rfl⟩
      rw [count_arrangeKeys] at ha
      exact ⟨by rw [hc.lookup_eq_some.1 hv]; norm_num, ha⟩
    · rintro ⟨hkv, hk⟩
      exact ⟨(k, ()), by rwa [count_arrangeKeys],
        v, hc.lookup_eq_some.2 ((hc.isSet _).resolve_left hkv), rfl, rfl⟩

/-- What the loop of `intersect_tables` keeps: a table of keys with exactly the keys that
satisfy `p`. -/
structure KeysWhere (rk : ZSet (Key × Unit)) (p : Key → Bool) : Prop where
  isTable : IsTable rk
  isSome_lookup : ∀ k, (lookup rk k).isSome = p k

theorem intersectStep_none {b : ZSet Row} (hb : IsTable b) :
    ∃ rk, intersectStep none b = some rk ∧ KeysWhere rk fun k => (lookup b k).isSome :=
  ⟨_, rfl, isTable_arrangeKeys (isSet_keysOf hb), isSome_lookup_keys hb⟩

theorem intersectStep_some {rk : ZSet (Key × Unit)} {p : Key → Bool} (hrk : KeysWhere rk p)
    {b : ZSet Row} (hb : IsTable b) :
    ∃ rk', intersectStep (some rk) b = some rk' ∧
      KeysWhere rk' fun k => p k && (lookup b k).isSome := by
  have hj := joinCore_keys hrk.isTable.isSet (isTable_arrangeKeys (isSet_keysOf hb))
  have hL : (((support rk).filter fun a => (lookup (arrangeKeys (keysOf b)) a.1).isSome).map
      Prod.fst).Nodup := hrk.isTable.nodup_keys.sublist ((List.filter_sublist _).map _)
  refine ⟨_, rfl, (isTable_ofList hL).of_equiv hj.symm, fun k => ?_⟩
  rw [isSome_lookup_congr hj, Bool.eq_iff_iff, isSome_lookup_ofList ((nodup_support _).filter _),
    ← hrk.isSome_lookup, ← isSome_lookup_keys hb, Bool.and_eq_true, isSome_lookup]
  simp only [List.mem_map, List.mem_filter]
  constructor
  · rintro ⟨a, ⟨ha, hk⟩, rfl⟩
    exact ⟨⟨a, ha, rfl⟩, hk⟩
  · rintro ⟨⟨a, ha, rfl⟩, hk⟩
    exact ⟨a, ⟨ha, hk⟩, rfl⟩

/-- The loop of `intersect_tables` over tables keeps the keys of all of them. -/
theorem foldl_intersectStep : ∀ (bs : List (ZSet Row)) (rk : ZSet (Key × Unit)) (p : Key → Bool),
    KeysWhere rk p → (∀ b ∈ bs, IsTable b) →
      ∃ rk', bs.foldl intersectStep (some rk) = some rk' ∧
        KeysWhere rk' fun k => p k && bs.all fun b => (lookup b k).isSome
  | [], rk, p, h, _ => ⟨rk, rfl, by simpa using h⟩
  | b :: bs, rk, p, h, hbs => by
    obtain ⟨rk', hstep, h'⟩ := intersectStep_some h (hbs b (List.mem_cons_self _ _))
    obtain ⟨rk'', hfold, h''⟩ := foldl_intersectStep bs rk' _ h' fun c hc =>
      hbs c (List.mem_cons_of_mem _ hc)
    refine ⟨rk'', by rw [List.foldl_cons, hstep, hfold], ?_⟩
    simpa [Bool.and_assoc] using h''

/-- `intersect_tables` of a collection holding every row at most once with tables: the rows
whose key is a key of every other table, and the collection itself when there is none. -/
theorem intersectTables_eq {A : ZSet Row} (hA : IsSet A) {others : List (ZSet Row)}
    (hothers : ∀ b ∈ others, IsTable b) :
    Equiv (intersectTables A others)
      (ofList ((support A).filter fun a => others.all fun b => (lookup b a.1).isSome)) ∧
      (others = [] → intersectTables A others = A) := by
  refine ⟨?_, fun h => by subst h; rfl⟩
  cases others with
  | nil => simpa using hA.equiv_ofList
  | cons b bs =>
    obtain ⟨rk, h1, hk1⟩ := intersectStep_none (hothers b (List.mem_cons_self _ _))
    obtain ⟨rk', hfold, hk⟩ := foldl_intersectStep bs rk _ hk1 fun c hc =>
      hothers c (List.mem_cons_of_mem _ hc)
    have heq : intersectTables A (b :: bs) = joinCore (fun k v (_ : Unit) => [(k, v)]) A rk' := by
      rw [intersectTables, List.foldl_cons, h1, hfold]
    rw [heq]
    refine (joinCore_keys hA hk.isTable).trans
      (equiv_ofList_of_perm (.of_eq (List.filter_congr fun a _ => ?_)))
    rw [hk.isSome_lookup, List.all_cons]

/-- `subtract_table` of a collection holding every row at most once and a table: the rows
whose key is not a key of the table. -/
theorem subtractTable_eq {A B : ZSet Row} (hA : IsSet A) (hB : IsTable B) :
    Equiv (subtractTable A B) (ofList ((support A).filter fun a => (lookup B a.1).isNone)) := by
  have hj := joinCore_keys hA (isTable_arrangeKeys (isSet_keysOf hB))
  refine (hA.equiv_ofList.append hj.negate).trans (equiv_ofList_sub ?_)
  refine (List.filter_append_perm (fun a : Row => (lookup B a.1).isNone) (support A)).symm.trans
    (List.Perm.append_left _ (.of_eq (List.filter_congr fun a _ => ?_)))
  rw [isSome_lookup_keys hB]
  cases lookup B a.1 <;> rfl

/-- A table is the concatenation of its rows outside another table and its rows inside it. -/
theorem concat_subtract_intersect {A B : ZSet Row} (hA : IsSet A) (hB : IsTable B) :
    Equiv (concatTables [subtractTable A B, intersectTables A [B]]) A := by
  have hi : Equiv (intersectTables A [B])
      (ofList ((support A).filter fun a => [B].all fun b => (lookup b a.1).isSome)) :=
    (intersectTables_eq hA (by simpa using hB)).1
  simp only [concatTables, List.flatten_cons, List.flatten_nil, List.append_nil]
  refine ((subtractTable_eq hA hB).append hi).trans ?_
  rw [← ofList_append]
  refine (equiv_ofList_of_perm ?_).trans hA.equiv_ofList.symm
  refine .trans (.of_eq ?_) (List.filter_append_perm (fun a : Row => (lookup B a.1).isNone) _)
  congr 2
  funext a
  rw [List.all_cons, List.all_nil, Bool.and_true]
  cases lookup B a.1 <;> rfl

/-- The operators that restrict a table to keys have set semantics: `restrict_column` keeps the
rows whose key is in the universe, `intersect_tables` those whose key is a key of every other
table, `subtract_table` those whose key is not a key of the other table, and the last two
together give the table back. -/
theorem key_restrictions_set_semantics :
    (∀ (ignoreAsserts sameUniverse : Bool) (U : ZSet Key) (c : ZSet Row), IsSet U → IsTable c →
      (sameUniverse = true → ∀ r ∈ support c, count U r.1 ≠ 0) →
      Equiv (restrictColumn ignoreAsserts sameUniverse U c).1
        (ofList ((support c).filter fun r => count U r.1 ≠ 0))) ∧
    (∀ (A : ZSet Row) (others : List (ZSet Row)), IsSet A → (∀ b ∈ others, IsTable b) →
      Equiv (intersectTables A others)
        (ofList ((support A).filter fun a => others.all fun b => (lookup b a.1).isSome)) ∧
      (others = [] → intersectTables A others = A)) ∧
    (∀ A B : ZSet Row, IsSet A → IsTable B →
      Equiv (subtractTable A B) (ofList ((support A).filter fun a => (lookup B a.1).isNone))) ∧
    (∀ A B : ZSet Row, IsSet A → IsTable B →
      Equiv (concatTables [subtractTable A B, intersectTables A [B]]) A) :=
  ⟨fun ignoreAsserts sameUniverse _ _ hU hc hfast =>
      restrictColumn_eq ignoreAsserts sameUniverse hU hc hfast,
    fun _ _ hA hothers => intersectTables_eq hA hothers,
    fun _ _ hA hB => subtractTable_eq hA hB,
    fun _ _ hA hB => concat_subtract_intersect hA hB⟩

theorem key_restrictions_set_semantics_sample :
    IsSet (ofList [((1 : Key), Value.int 1), (2, .int 2)]) ∧
    IsTable (ofList [((2 : Key), Value.int 5)]) ∧
    Equiv (concatTables [subtractTable (ofList [(1, .int 1), (2, .int 2)]) (ofList [(2, .int 5)]),
      intersectTables (ofList [(1, .int 1), (2, .int 2)]) [ofList [(2, .int 5)]]])
      (ofList [(1, .int 1), (2, .int 2)]) :=
  have hA : IsSet (ofList [((1 : Key), Value.int 1), (2, .int 2)]) := isSet_ofList (by decide)
  have hB : IsTable (ofList [((2 : Key), Value.int 5)]) := isTable_ofList (by decide)
  ⟨hA, hB, key_restrictions_set_semantics.2.2.2 _ _ hA hB⟩

/-- The part of a list that falls to a worker. The static tables (`static_universe`,
`static_column`, `static_table`) keep, on the worker `worker_index` of `worker_count`, the keys
and rows whose shard falls to it: the shard of the key (`shard_as_usize`, not in the source),
or for a row of `static_table` the shard the row names. -/
def shardOf {β : Type} (shard : β → ℕ) (workerCount workerIndex : ℕ) (l : List β) : List β :=
  l.filter fun b => shard b % workerCount = workerIndex

/-- `static_universe` on one worker: the keys of its shard. -/
def staticUniverse (shard : Key → ℕ) (workerCount workerIndex : ℕ) (keys : List Key) : ZSet Key :=
  ofList (shardOf shard workerCount workerIndex keys)

/-- `static_column` on one worker: the rows of its shard, checked against the universe's keys
on the worker unless asserts are ignored. -/
def staticColumn (shard : Key → ℕ) (workerCount workerIndex : ℕ) (ignoreAsserts : Bool)
    (universeKeys : ZSet Key) (values : List Row) : ZSet Row × List DataError :=
  let column := ofList (shardOf (fun r => shard r.1) workerCount workerIndex values)
  (column, if ignoreAsserts then [] else Ix.assertInputKeysMatchOutputKeys universeKeys column)

/-- A `DataRow` of `static_table`: the fields it reads. -/
structure DataRow where
  key : Key
  values : List Value
  time : ℕ
  diff : ℤ
  shard : Option ℕ

/-- The update a row of `static_table` gives: its values made a tuple, at its time. -/
def DataRow.update (row : DataRow) : (Row × ℕ) × ℤ :=
  (((row.key, .tuple row.values), row.time), row.diff)

/-- `static_table` on one worker: the updates of the rows of its shard; a row that is neither
an insertion nor a deletion fails the assertion. -/
def staticTable (shard : Key → ℕ) (workerCount workerIndex : ℕ) (values : List DataRow) :
    Except Error (ZSet (Row × ℕ)) :=
  (shardOf (fun row => row.shard.getD (shard row.key)) workerCount workerIndex values).mapM
    fun row => if row.diff = 1 ∨ row.diff = -1 then pure row.update
      else throw (.assertion "assertion failed: row.diff == DIFF_INSERTION || row.diff == DIFF_DELETION")

theorem count_flatMap_range {α : Type} [DecidableEq α] (f : ℕ → ZSet α) (a : α) :
    ∀ n, count ((List.range n).flatMap f) a = ((List.range n).map fun w => count (f w) a).sum
  | 0 => rfl
  | n + 1 => by
    rw [List.range_succ, List.flatMap_append, count_append, count_flatMap_range f a n,
      List.map_append, List.sum_append]
    simp

/-- Over all workers, the shares of a list of updates hold each update once. -/
theorem sum_count_shardOf {α β : Type} [DecidableEq α] (shard : β → ℕ) (g : β → α × ℤ)
    {workerCount : ℕ} (h : 0 < workerCount) (a : α) : ∀ l : List β,
    ((List.range workerCount).map fun w => count ((shardOf shard workerCount w l).map g) a).sum =
      count (l.map g) a
  | [] => by simp [shardOf]
  | b :: l => by
    have hmem : shard b % workerCount ∈ List.range workerCount :=
      List.mem_range.2 (Nat.mod_lt _ h)
    have hsplit : ∀ w, count ((shardOf shard workerCount w (b :: l)).map g) a =
        (if w = shard b % workerCount then count [g b] a else 0) +
          count ((shardOf shard workerCount w l).map g) a := fun w => by
      by_cases hw : shard b % workerCount = w
      · rw [shardOf, List.filter_cons_of_pos (by simpa using hw), List.map_cons, if_pos hw.symm,
          ← count_append]
        rfl
      · rw [shardOf, List.filter_cons_of_neg (by simpa using hw), if_neg (Ne.symm hw), zero_add]
        rfl
    simp only [hsplit, List.sum_map_add, sum_count_shardOf shard g h a l, List.sum_map_ite_eq,
      List.count_eq_one_of_mem (List.nodup_range _) hmem, List.map_cons]
    rw [show g b :: l.map g = [g b] ++ l.map g from rfl, count_append]
    simp

/-- Over all workers, `static_universe` loses no key and duplicates none: the workers' shares
together hold each key as often as the list does. -/
theorem static_universe_partitions_keys (shard : Key → ℕ) {workerCount : ℕ}
    (h : 0 < workerCount) (keys : List Key) :
    Equiv ((List.range workerCount).flatMap fun w => staticUniverse shard workerCount w keys)
      (ofList keys) := fun k => by
  rw [count_flatMap_range]
  exact sum_count_shardOf shard (·, 1) h k keys

theorem static_universe_partitions_two_workers :
    0 < 2 ∧ Equiv ((List.range 2).flatMap fun w =>
      staticUniverse (fun k => k.val.toNat) 2 w [1, 2, 3]) (ofList [1, 2, 3]) :=
  ⟨by decide, static_universe_partitions_keys _ (by decide) _⟩

/-- Over all workers, `static_table` loses no update and duplicates none: on rows that are
insertions or deletions every worker succeeds, and their updates together are the rows'
updates. -/
theorem static_table_partitions_rows (shard : Key → ℕ) {workerCount : ℕ} (h : 0 < workerCount)
    (values : List DataRow) (hdiff : ∀ row ∈ values, row.diff = 1 ∨ row.diff = -1) :
    ∃ outs, (List.range workerCount).mapM (fun w => staticTable shard workerCount w values) =
        .ok outs ∧ Equiv outs.flatten (values.map DataRow.update) := by
  have hworker : ∀ w, staticTable shard workerCount w values = .ok ((shardOf
      (fun row => row.shard.getD (shard row.key)) workerCount w values).map DataRow.update) :=
    fun w => mapM_eq_ok _ _ fun row hrow => if_pos (hdiff row (List.mem_filter.1 hrow).1)
  refine ⟨_, mapM_eq_ok _ _ fun w _ => hworker w, fun a => ?_⟩
  rw [← List.flatMap_def, count_flatMap_range]
  exact sum_count_shardOf _ _ h a values

theorem static_table_partitions_two_workers :
    0 < 2 ∧ (∀ row ∈ [⟨1, [.int 5], 0, 1, none⟩, ⟨2, [.int 6], 0, 1, some 7⟩,
        ⟨1, [.int 5], 3, -1, none⟩], DataRow.diff row = 1 ∨ DataRow.diff row = -1) ∧
      ∃ outs, (List.range 2).mapM (fun w => staticTable (fun k => k.val.toNat) 2 w
          [⟨1, [.int 5], 0, 1, none⟩, ⟨2, [.int 6], 0, 1, some 7⟩, ⟨1, [.int 5], 3, -1, none⟩]) =
          .ok outs ∧ Equiv outs.flatten ([⟨1, [.int 5], 0, 1, none⟩, ⟨2, [.int 6], 0, 1, some 7⟩,
            ⟨1, [.int 5], 3, -1, none⟩].map DataRow.update) :=
  have hdiff : ∀ row ∈ [(⟨1, [.int 5], 0, 1, none⟩ : DataRow), ⟨2, [.int 6], 0, 1, some 7⟩,
      ⟨1, [.int 5], 3, -1, none⟩], row.diff = 1 ∨ row.diff = -1 := by decide
  ⟨by decide, hdiff, static_table_partitions_rows _ (by decide) _ hdiff⟩

end Universe
end Pathway
