import Pathway.Engine.Table

/-! `update_rows_table` and `update_cells_table`. The rows of a table `T` become
`(key, Original values)` records and those of an update table `U` become
`(key, Update values)`; the two are concatenated and reduced per key. Both reducers match on
the slice of a key as a sorted list, so what they do rests on `MaybeUpdate`'s derived order
putting every `Original` before every `Update`. `updateCellsLogic_rules` is the rule table of
the `update_cells_table` reducer on such slices; the theorems after it say what the two
operators compute on tables. -/
namespace Pathway
namespace Update
open ZSet

/-- `MaybeUpdate<Value>`: a record of the table (`Original`) or of the update table
(`Update`). -/
inductive MaybeUpdate where
  | original (v : Value)
  | update (v : Value)
  deriving DecidableEq

namespace MaybeUpdate

/-- The derived `Ord` of `MaybeUpdate`: the variant first, in declaration order, then the
order `leV` of the values. -/
def le (leV : Value → Value → Bool) : MaybeUpdate → MaybeUpdate → Bool
  | original a, original b => leV a b
  | original _, update _ => true
  | update _, original _ => false
  | update a, update b => leV a b

/-- Whether a record is an `Original`. -/
def isOriginal : MaybeUpdate → Bool
  | original _ => true
  | update _ => false

@[simp] theorem isOriginal_original (v : Value) : (original v).isOriginal = true := rfl
@[simp] theorem isOriginal_update (v : Value) : (update v).isOriginal = false := rfl

variable {leV : Value → Value → Bool}

theorem le_trans (htrans : ∀ a b c, leV a b → leV b c → leV a c) (a b c : MaybeUpdate) :
    le leV a b → le leV b c → le leV a c := by
  cases a <;> cases b <;> cases c <;> simp only [le] <;> first | exact htrans _ _ _ | simp

theorem le_total (htotal : ∀ a b, leV a b || leV b a) (a b : MaybeUpdate) :
    le leV a b || le leV b a := by
  cases a <;> cases b <;> simp only [le] <;> first | exact htotal _ _ | rfl

/-- Only an `Original` comes before an `Original`. -/
theorem isOriginal_of_le {a b : MaybeUpdate} (h : le leV a b) (hb : b.isOriginal) :
    a.isOriginal := by
  cases a <;> cases b <;> simp_all [le]

end MaybeUpdate

/-- `update_rows_arrange`: the rows of `T` as `Original`s, then those of `U` as `Update`s. -/
def updateRowsArrange (T U : ZSet Row) : ZSet (Key × MaybeUpdate) :=
  ZSet.map (fun r => (r.1, .original r.2)) T ++ ZSet.map (fun r => (r.1, .update r.2)) U

/-- The reducer of `update_rows_table`. -/
def updateRowsLogic (k : Key) :
    List (MaybeUpdate × ℤ) → Except Error (List (Value × ℤ) × List DataError)
  | [(.original originalValues, 1)] => pure ([(originalValues, 1)], [])
  | [(.update newValues, 1)] => pure ([(newValues, 1)], [])
  | [(.original _, 1), (.update newValues, 1)] => pure ([(newValues, 1)], [])
  | _ => pure ([], [.duplicateKey k])

/-- `update_rows_table`: the row of `U` where there is one, that of `T` otherwise. -/
def updateRowsTable (leV : Value → Value → Bool) (T U : ZSet Row) :
    Except Error (ZSet Row × List DataError) :=
  reduce (MaybeUpdate.le leV) updateRowsLogic (updateRowsArrange T U)

/-- The `Original` records of a slice. -/
def originals (sl : List (MaybeUpdate × ℤ)) : List (MaybeUpdate × ℤ) :=
  sl.filter fun x => x.1.isOriginal

/-- The `Update` records of a slice. -/
def updates (sl : List (MaybeUpdate × ℤ)) : List (MaybeUpdate × ℤ) :=
  sl.filter fun x => !x.1.isOriginal

/-- A list with every `p`-element before every other one is its `p`-elements, then the
others. -/
private theorem eq_filter_append_filter {α : Type} {p : α → Bool} :
    ∀ {l : List α}, l.Pairwise (fun a b => p b → p a) → l = l.filter p ++ l.filter (!p ·)
  | [], _ => rfl
  | x :: l, h => by
    rw [List.pairwise_cons] at h
    have ih := eq_filter_append_filter h.2
    by_cases hx : p x
    · rw [List.filter_cons_of_pos hx, List.filter_cons_of_neg (by simp [hx]), List.cons_append,
        ← ih]
    · have hnil : l.filter p = [] := List.filter_eq_nil_iff.2 fun y hy hpy => hx (h.1 y hy hpy)
      rw [hnil, List.nil_append] at ih
      rw [List.filter_cons_of_neg hx, List.filter_cons_of_pos (by simpa using hx), hnil,
        List.nil_append, ← ih]

/-- A slice with its `Original`s first is its `Original`s followed by its `Update`s. -/
theorem eq_originals_append_updates {sl : List (MaybeUpdate × ℤ)}
    (h : sl.Pairwise fun a b => b.1.isOriginal → a.1.isOriginal) :
    sl = originals sl ++ updates sl :=
  eq_filter_append_filter h

/-- The slices the right-biased union keeps a row of, and the row it keeps:
`[Original(o):1]` keeps `o`, `[Update(u):1]` and `[Original(o):1, Update(u):1]` keep `u`. -/
def Keeps (sl : List (MaybeUpdate × ℤ)) (v : Value) : Prop :=
  sl = [(.original v, 1)] ∨ sl = [(.update v, 1)] ∨ ∃ o, sl = [(.original o, 1), (.update v, 1)]

/-- The rule table of the `update_rows_table` reducer, on any slice: one value of count one
and no log exactly on the slices the union keeps, with the value they keep; on every other
slice nothing, and a duplicate key logged. -/
theorem updateRowsLogic_rules (k : Key) (sl : List (MaybeUpdate × ℤ)) :
    (∀ v, updateRowsLogic k sl = .ok ([(v, 1)], []) ↔ Keeps sl v) ∧
    ((¬ ∃ v, Keeps sl v) → updateRowsLogic k sl = .ok ([], [.duplicateKey k])) := by
  unfold updateRowsLogic Keeps
  split
  next o => exact ⟨fun v => by simp, fun h => absurd ⟨o, .inl rfl⟩ h⟩
  next u => exact ⟨fun v => by simp, fun h => absurd ⟨u, .inr (.inl rfl)⟩ h⟩
  next o u => exact ⟨fun v => by simp, fun h => absurd ⟨u, .inr (.inr ⟨o, rfl⟩)⟩ h⟩
  next h1 h2 h3 =>
    refine ⟨fun v => ⟨fun h => by simp at h, ?_⟩, fun _ => rfl⟩
    rintro (h | h | ⟨o, h⟩)
    exacts [(h1 v h).elim, (h2 v h).elim, (h3 o v h).elim]

/-- The slice `reduce` gives key `k` of `update_rows_arrange T U`. -/
def slice (leV : Value → Value → Bool) (T U : ZSet Row) (k : Key) : List (MaybeUpdate × ℤ) :=
  (group (updateRowsArrange T U) k).mergeSort fun a b => MaybeUpdate.le leV a.1 b.1

theorem updateRowsTable_eq (leV : Value → Value → Bool) (T U : ZSet Row) :
    updateRowsTable leV T U =
      reduceKeys updateRowsLogic (slice leV T U) (groupKeys (updateRowsArrange T U)) := rfl

/-- Two collections of rows tagged by different constructors: a record tagged by the first,
injective one counts as that row of the first collection. -/
private theorem count_tagged_append {tag tag' : Value → MaybeUpdate} (hinj : Function.Injective tag)
    (hne : ∀ v w, tag' w ≠ tag v) (S S' : ZSet Row) (k : Key) (v : Value) :
    count (ZSet.map (fun r : Row => (r.1, tag r.2)) S ++ ZSet.map (fun r : Row => (r.1, tag' r.2)) S')
      (k, tag v) = count S (k, v) := by
  have h0 : count (ZSet.map (fun r : Row => (r.1, tag' r.2)) S') (k, tag v) = 0 :=
    count_eq_zero_of_not_mem (by simp [ZSet.map, hne])
  have hinj' : Function.Injective fun r : Row => (r.1, tag r.2) := fun a b h =>
    Prod.ext (Prod.ext_iff.1 h).1 (hinj (Prod.ext_iff.1 h).2)
  rw [count_append, h0, add_zero]
  exact count_map_of_injective hinj' S (k, v)

@[simp] theorem count_updateRowsArrange_original (T U : ZSet Row) (k : Key) (v : Value) :
    count (updateRowsArrange T U) (k, .original v) = count T (k, v) :=
  count_tagged_append (fun _ _ => MaybeUpdate.original.inj) (fun _ _ => MaybeUpdate.noConfusion) T U k v

@[simp] theorem count_updateRowsArrange_update (T U : ZSet Row) (k : Key) (v : Value) :
    count (updateRowsArrange T U) (k, .update v) = count U (k, v) := by
  rw [updateRowsArrange, count_append, add_comm, ← count_append]
  exact count_tagged_append (fun _ _ => MaybeUpdate.update.inj) (fun _ _ => MaybeUpdate.noConfusion) U T k v

/-- The keys the reducers are called on: those of `T` and those of `U`. -/
theorem mem_groupKeys_updateRowsArrange {T U : ZSet Row} {k : Key} :
    k ∈ groupKeys (updateRowsArrange T U) ↔ (lookup T k).isSome ∨ (lookup U k).isSome := by
  simp only [mem_groupKeys, isSome_lookup, List.mem_map, mem_support]
  constructor
  · rintro ⟨v | v, hv⟩
    · exact .inl ⟨(k, v), by simpa using hv, rfl⟩
    · exact .inr ⟨(k, v), by simpa using hv, rfl⟩
  · rintro (⟨⟨k', v⟩, hv, rfl⟩ | ⟨⟨k', v⟩, hv, rfl⟩)
    · exact ⟨.original v, by simpa using hv⟩
    · exact ⟨.update v, by simpa using hv⟩

/-- Sorting by the derived order puts the `Original`s of a slice first. -/
theorem sorted_slice {leV : Value → Value → Bool} (htrans : ∀ a b c, leV a b → leV b c → leV a c)
    (htotal : ∀ a b, leV a b || leV b a) (T U : ZSet Row) (k : Key) :
    (slice leV T U k).Pairwise fun a b => b.1.isOriginal → a.1.isOriginal :=
  (List.sorted_mergeSort (fun a b c => MaybeUpdate.le_trans htrans a.1 b.1 c.1)
    (fun a b => MaybeUpdate.le_total htotal a.1 b.1) _).imp MaybeUpdate.isOriginal_of_le

/-- The records of one variant in a slice, when the rows of that variant form a table: the
row of the key there, if any, with count one. -/
private theorem filter_slice_eq (leV : Value → Value → Bool) {T U S : ZSet Row} (hS : IsTable S)
    (k : Key) (mk : Value → MaybeUpdate) (p : MaybeUpdate → Bool)
    (hp : ∀ m, p m = true ↔ ∃ v, m = mk v)
    (hcount : ∀ v, count (updateRowsArrange T U) (k, mk v) = count S (k, v)) :
    (slice leV T U k).filter (fun x => p x.1) = ((lookup S k).map fun v => (mk v, 1)).toList := by
  have hmem : ∀ m c, (m, c) ∈ (slice leV T U k).filter (fun x => p x.1) ↔
      ∃ v, m = mk v ∧ lookup S k = some v ∧ c = 1 := by
    intro m c
    simp only [List.mem_filter, slice, List.mem_mergeSort, mem_group, hp]
    constructor
    · rintro ⟨⟨hc, rfl⟩, v, rfl⟩
      rw [hcount] at hc ⊢
      have h1 := (hS.isSet _).resolve_left hc
      exact ⟨v, rfl, hS.lookup_eq_some.2 h1, h1⟩
    · rintro ⟨v, rfl, hl, rfl⟩
      rw [hcount, hS.lookup_eq_some.1 hl]
      exact ⟨⟨one_ne_zero, rfl⟩, v, rfl⟩
  cases hl : lookup S k with
  | none =>
    refine List.eq_nil_iff_forall_not_mem.2 fun ⟨m, c⟩ h => ?_
    obtain ⟨v, -, hv, -⟩ := (hmem m c).1 h
    rw [hl] at hv
    cases hv
  | some o =>
    have hnd : ((slice leV T U k).filter fun x => p x.1).Nodup :=
      ((List.mergeSort_perm _ _).nodup_iff.2 (nodup_group _ k)).filter _
    refine List.perm_singleton.1 ((List.perm_ext_iff_of_nodup hnd (List.nodup_singleton _)).2
      fun ⟨m, c⟩ => ?_)
    simp only [hmem, hl, Option.some.injEq, List.mem_singleton, Prod.mk.injEq]
    constructor
    · rintro ⟨v, rfl, rfl, rfl⟩
      exact ⟨rfl, rfl⟩
    · rintro ⟨rfl, rfl⟩
      exact ⟨o, rfl, rfl, rfl⟩

/-- The `Original`s of a slice of a table: the row of the key, if any. -/
theorem originals_slice (leV : Value → Value → Bool) {T : ZSet Row} (hT : IsTable T)
    (U : ZSet Row) (k : Key) :
    originals (slice leV T U k) = ((lookup T k).map fun o => (.original o, 1)).toList :=
  filter_slice_eq leV hT k .original MaybeUpdate.isOriginal (fun m => by cases m <;> simp)
    (count_updateRowsArrange_original T U k)

/-- The `Update`s of a slice of an update table: its row of the key, if any. -/
theorem updates_slice (leV : Value → Value → Bool) (T : ZSet Row) {U : ZSet Row}
    (hU : IsTable U) (k : Key) :
    updates (slice leV T U k) = ((lookup U k).map fun u => (.update u, 1)).toList :=
  filter_slice_eq leV hU k .update (fun m => !m.isOriginal) (fun m => by cases m <;> simp)
    (count_updateRowsArrange_update T U k)

/-- The slice of a key when both sides are tables: its row in `T`, then its row in `U`. -/
theorem slice_eq_of_isTable {leV : Value → Value → Bool}
    (htrans : ∀ a b c, leV a b → leV b c → leV a c) (htotal : ∀ a b, leV a b || leV b a)
    {T U : ZSet Row} (hT : IsTable T) (hU : IsTable U) (k : Key) :
    slice leV T U k = ((lookup T k).map fun o => (.original o, 1)).toList ++
      ((lookup U k).map fun u => (.update u, 1)).toList := by
  rw [eq_originals_append_updates (sorted_slice htrans htotal T U k), originals_slice leV hT,
    updates_slice leV T hU]

/-- `update_rows_table` on two tables is their right-biased union: the rows of `U`, and the
rows of `T` whose key `U` does not have, each once; it logs nothing. -/
theorem updateRowsTable_union {leV : Value → Value → Bool}
    (htrans : ∀ a b c, leV a b → leV b c → leV a c) (htotal : ∀ a b, leV a b || leV b a)
    {T U : ZSet Row} (hT : IsTable T) (hU : IsTable U) :
    ∃ rows, updateRowsTable leV T U = .ok (rows, []) ∧
      Equiv rows (U ++ ZSet.filter (fun r => (lookup U r.1).isNone) T) := by
  let F : Key → Option Value := fun k => (lookup U k).or (lookup T k)
  have hrows : ∀ k ∈ groupKeys (updateRowsArrange T U),
      updateRowsLogic k (slice leV T U k) = .ok ((F k).toList.map (·, 1), []) := fun k hk => by
    have hsome := mem_groupKeys_updateRowsArrange.1 hk
    rw [slice_eq_of_isTable htrans htotal hT hU]
    simp only [F]
    cases hTk : lookup T k <;> cases hUk : lookup U k
    · simp [hTk, hUk] at hsome
    all_goals rfl
  have hmem : ∀ k v, (k, v) ∈ (groupKeys (updateRowsArrange T U)).filterMap
      (fun k => (F k).map (k, ·)) ↔ F k = some v := by
    intro k v
    simp only [List.mem_filterMap, Option.map_eq_some', Prod.mk.injEq]
    constructor
    · rintro ⟨k', -, v', hv', rfl, rfl⟩
      exact hv'
    · intro hv
      refine ⟨k, mem_groupKeys_updateRowsArrange.2 ?_, v, hv, rfl, rfl⟩
      simp only [F] at hv
      cases hUk : lookup U k <;> simp_all
  have hnd : ((groupKeys (updateRowsArrange T U)).filterMap fun k => (F k).map (k, ·)).Nodup :=
    List.Nodup.of_map Prod.fst
      (map_fst_filterMap_pair F _ ▸ (nodup_groupKeys _).filter _)
  rw [updateRowsTable_eq, reduceKeys_eq_ofList_filterMap F (fun _ => []) _ hrows,
    List.flatMap_eq_nil_iff.2 fun _ _ => rfl]
  refine ⟨_, rfl, fun ⟨k, v⟩ => ?_⟩
  rw [count_of_equiv_ofList hnd (ZSet.Equiv.refl _), count_append, count_filter, hU.count_eq,
    hT.count_eq]
  simp only [hmem, F]
  cases lookup U k <;> cases lookup T k <;> simp

/-- `update_rows` is a right-biased union: its reducer keeps one value, of count one, exactly
on the slices `[Original(o):1]`, `[Update(u):1]` and `[Original(o):1, Update(u):1]`, and
logs a duplicate key on every other slice; on two tables it gives the rows of `U` and the
rows of `T` whose key is not in `U`. -/
theorem update_rows_right_biased_union :
    (∀ (k : Key) (sl : List (MaybeUpdate × ℤ)),
      (∀ v, updateRowsLogic k sl = .ok ([(v, 1)], []) ↔ Keeps sl v) ∧
      ((¬ ∃ v, Keeps sl v) → updateRowsLogic k sl = .ok ([], [.duplicateKey k]))) ∧
    ∀ leV : Value → Value → Bool, (∀ a b c, leV a b → leV b c → leV a c) →
      (∀ a b, leV a b || leV b a) → ∀ T U : ZSet Row, IsTable T → IsTable U →
      ∃ rows, updateRowsTable leV T U = .ok (rows, []) ∧
        Equiv rows (U ++ ZSet.filter (fun r => (lookup U r.1).isNone) T) :=
  ⟨updateRowsLogic_rules, fun _ htrans htotal _ _ hT hU =>
    updateRowsTable_union htrans htotal hT hU⟩

theorem update_rows_right_biased_union_sample :
    (∀ a b c : Value, (fun _ _ => true) a b → (fun _ _ => true) b c → (fun _ _ => true) a c) ∧
    (∀ a b : Value, ((fun _ _ => true) a b || (fun _ _ => true) b a) = true) ∧
    IsTable (ofList [((1 : Key), Value.int 10), (2, .int 20)]) ∧
    IsTable (ofList [((2 : Key), Value.int 21), (3, .int 30)]) ∧
    ∃ rows, updateRowsTable (fun _ _ => true) (ofList [(1, .int 10), (2, .int 20)])
        (ofList [(2, .int 21), (3, .int 30)]) = .ok (rows, []) ∧
      Equiv rows (ofList [((2 : Key), Value.int 21), (3, .int 30)] ++
        ZSet.filter (fun r => (lookup (ofList [((2 : Key), Value.int 21), (3, .int 30)]) r.1).isNone)
          (ofList [((1 : Key), Value.int 10), (2, .int 20)])) :=
  have htrans : ∀ a b c : Value, (fun _ _ => true) a b → (fun _ _ => true) b c →
      (fun _ _ => true) a c := fun _ _ _ _ _ => rfl
  have htotal : ∀ a b : Value, ((fun _ _ => true) a b || (fun _ _ => true) b a) = true :=
    fun _ _ => rfl
  have hT : IsTable (ofList [((1 : Key), Value.int 10), (2, .int 20)]) := isTable_ofList (by decide)
  have hU : IsTable (ofList [((2 : Key), Value.int 21), (3, .int 30)]) :=
    isTable_ofList (by decide)
  ⟨htrans, htotal, hT, hU, update_rows_right_biased_union.2 _ htrans htotal _ _ hT hU⟩

end Update
end Pathway
