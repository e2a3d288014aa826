import Pathway.Engine.ZSet
import Pathway.Engine.Value

/-! Tables: collections of `(key, row)` records in which every record is present at most
once and every key has at most one row, as the engine's tables are at every time. The row
of a key is read off the collection by `lookup`; on a table it is the unique record of the
key. -/
namespace Pathway

/-- A row of a table: its key and its values. -/
abbrev Row := Key × Value

namespace ZSet
variable {κ ν : Type} [DecidableEq κ] [DecidableEq ν]

/-- The row of key `k`: the first present record of `k`. -/
def lookup (z : ZSet (κ × ν)) (k : κ) : Option ν :=
  ((support z).find? fun a => a.1 = k).map (·.2)

/-- At most one row per key: every record at most once, and no key with two rows. -/
structure IsTable (z : ZSet (κ × ν)) : Prop where
  isSet : IsSet z
  unique : ∀ k v w, count z (k, v) ≠ 0 → count z (k, w) ≠ 0 → v = w

theorem count_of_mem_nodup {z : ZSet κ} (hnd : (List.map Prod.fst z).Nodup) {u : κ × ℤ} (hu : u ∈ z) :
    count z u.1 = u.2 := by
  induction z with
  | nil => cases hu
  | cons x z ih =>
    obtain ⟨b, d⟩ := x
    simp only [List.map_cons, List.nodup_cons] at hnd
    rcases List.mem_cons.1 hu with rfl | hu
    · simp [count_eq_zero_of_not_mem hnd.1]
    · have hne : u.1 ≠ b := fun h => hnd.1 (h ▸ List.mem_map_of_mem _ hu)
      simp [Ne.symm hne, ih hnd.2 hu]

/-- A key has a row exactly when a present record has it. -/
theorem isSome_lookup {z : ZSet (κ × ν)} {k : κ} :
    (lookup z k).isSome ↔ k ∈ (support z).map Prod.fst := by
  simp [lookup, List.find?_isSome]

/-- Whether a key has a row depends only on the counts. -/
theorem isSome_lookup_congr {z w : ZSet (κ × ν)} (h : Equiv z w) (k : κ) :
    (lookup z k).isSome = (lookup w k).isSome := by
  rw [Bool.eq_iff_iff, isSome_lookup, isSome_lookup]
  simp only [List.mem_map, mem_support, h _]

/-- On a table, the row of a key is the record of the key that is present. -/
theorem IsTable.lookup_eq_some {z : ZSet (κ × ν)} (h : IsTable z) {k : κ} {v : ν} :
    lookup z k = some v ↔ count z (k, v) = 1 := by
  constructor
  · intro hl
    obtain ⟨a, ha, rfl⟩ := Option.map_eq_some'.1 hl
    have hk : a.1 = k := by simpa using List.find?_some ha
    have hc : count z a ≠ 0 := mem_support.1 (List.mem_of_find?_eq_some ha)
    rw [← hk]
    exact (h.isSet a).resolve_left hc
  · intro hc
    have hmem : (k, v) ∈ support z := mem_support.2 (by omega)
    obtain ⟨a, ha⟩ : ∃ a, (support z).find? (fun a => a.1 = k) = some a :=
      Option.isSome_iff_exists.1 (List.find?_isSome.2 ⟨_, hmem, by simp⟩)
    have hk : a.1 = k := by simpa using List.find?_some ha
    have hv : a.2 = v := h.unique k a.2 v (by
      rw [← hk]; exact mem_support.1 (List.mem_of_find?_eq_some ha)) (by omega)
    simp [lookup, ha, hv]

/-- Two tables with the same records of a key have the same row there. -/
theorem IsTable.lookup_congr {z w : ZSet (κ × ν)} (hz : IsTable z) (hw : IsTable w) {k : κ}
    (h : ∀ v, count z (k, v) = count w (k, v)) : lookup z k = lookup w k := by
  refine Option.ext fun v => ?_
  rw [Option.mem_def, Option.mem_def, hz.lookup_eq_some, hw.lookup_eq_some, h]

/-- On a table, a record counts once where it is the row of its key, and not at all
elsewhere. -/
theorem IsTable.count_eq {z : ZSet (κ × ν)} (h : IsTable z) (k : κ) (v : ν) :
    count z (k, v) = if lookup z k = some v then 1 else 0 := by
  rcases h.isSet (k, v) with h0 | h1
  · rw [h0, if_neg (by rw [h.lookup_eq_some, h0]; exact zero_ne_one)]
  · rw [h1, if_pos (h.lookup_eq_some.2 h1)]

theorem IsTable.of_equiv {z w : ZSet (κ × ν)} (h : IsTable z) (hzw : Equiv z w) : IsTable w :=
  ⟨fun a => hzw a ▸ h.isSet a, fun k v u hv hu => h.unique k v u (hzw _ ▸ hv) (hzw _ ▸ hu)⟩

/-- On a table, a present record is the row of its key. -/
theorem IsTable.lookup_of_mem {z : ZSet (κ × ν)} (h : IsTable z) {a : κ × ν} (ha : a ∈ support z) :
    lookup z a.1 = some a.2 :=
  h.lookup_eq_some.2 ((h.isSet a).resolve_left (mem_support.1 ha))

/-- On a table, two present records of one key are the same. -/
theorem IsTable.eq_of_fst_eq {z : ZSet (κ × ν)} (h : IsTable z) {a b : κ × ν} (ha : a ∈ support z)
    (hb : b ∈ support z) (hab : a.1 = b.1) : a = b :=
  Prod.ext hab (h.unique a.1 a.2 b.2 (mem_support.1 ha) (hab ▸ mem_support.1 hb))

/-- The keys of a table's records are distinct. -/
theorem IsTable.nodup_keys {z : ZSet (κ × ν)} (h : IsTable z) : ((support z).map Prod.fst).Nodup :=
  (nodup_support z).map_on fun _ ha _ hb hab => h.eq_of_fst_eq ha hb hab

/-- A list of records with distinct keys is a table. -/
theorem isTable_ofList {S : List (κ × ν)} (hS : (S.map Prod.fst).Nodup) : IsTable (ofList S) := by
  have hcount := count_of_equiv_ofList (hS.of_map _) (Equiv.refl _)
  refine ⟨isSet_ofList (hS.of_map _), fun k v w hv hw => ?_⟩
  have hmem : ∀ u, count (ofList S) u ≠ 0 → u ∈ S := fun u hu => by
    rw [hcount] at hu
    split_ifs at hu with h
    exacts [h, absurd rfl hu]
  exact congrArg Prod.snd (List.inj_on_of_nodup_map hS (hmem _ hv) (hmem _ hw) rfl)

theorem isTable_nil : IsTable ([] : ZSet (κ × ν)) := ⟨fun _ => .inl rfl, by simp⟩

/-- A key has a row in a list without repeats exactly when the list has a record of it. -/
theorem isSome_lookup_ofList {L : List (κ × ν)} (hL : L.Nodup) (k : κ) :
    (lookup (ofList L) k).isSome ↔ k ∈ L.map Prod.fst := by
  have hcount := count_of_equiv_ofList hL (Equiv.refl _)
  rw [isSome_lookup]
  simp only [List.mem_map, mem_support, hcount, ne_eq, ite_eq_right_iff, one_ne_zero, imp_false,
    not_not]

/-- The records of a table with key `k`: the row of `k`, when there is one. -/
theorem IsTable.filter_key {z : ZSet (κ × ν)} (h : IsTable z) (k : κ) :
    (support z).filter (fun a => k = a.1) = ((lookup z k).map (k, ·)).toList := by
  cases hl : lookup z k with
  | none =>
    refine List.eq_nil_iff_forall_not_mem.2 fun a ha => ?_
    rw [List.mem_filter, decide_eq_true_eq] at ha
    have := h.lookup_of_mem ha.1
    rw [← ha.2, hl] at this
    cases this
  | some v =>
    refine List.perm_singleton.1 ((List.perm_ext_iff_of_nodup ((nodup_support z).filter _)
      (List.nodup_singleton _)).2 fun a => ?_)
    simp only [List.mem_filter, decide_eq_true_eq, Option.map_some', Option.toList_some,
      List.mem_singleton]
    constructor
    · rintro ⟨ha, rfl⟩
      have := h.lookup_of_mem ha
      rw [hl, Option.some.injEq] at this
      exact Prod.ext rfl this.symm
    · rintro rfl
      exact ⟨mem_support.2 (by rw [h.lookup_eq_some.1 hl]; norm_num), rfl⟩

/-- `join_core` with a table on the right: every left record meets the row of its key. -/
theorem IsTable.joinCore_equiv {β γ : Type} [DecidableEq β] [DecidableEq γ] {S : ZSet (κ × ν)}
    (h : IsTable S) (g : κ → β → ν → γ) (A : List (κ × β)) :
    Equiv (joinCore (fun k b v => [g k b v]) (ofList A) S)
      (ofList (A.filterMap fun a => (lookup S a.1).map (g a.1 a.2))) := by
  refine ((Equiv.refl _).joinCore h.isSet.equiv_ofList).trans ?_
  rw [joinCore_ofList, List.filterMap_eq_flatMap_toList]
  refine equiv_ofList_of_perm (.of_eq (congrArg _ (funext fun a => ?_)))
  refine (flatMap_ite_singleton (fun b : κ × ν => a.1 = b.1) (fun b => g a.1 a.2 b.2) _).trans ?_
  rw [h.filter_key]
  cases lookup S a.1 <;> rfl

/-- On a table, the present records are the rows of their keys. -/
theorem IsTable.mem_support_iff {z : ZSet (κ × ν)} (h : IsTable z) {k : κ} {v : ν} :
    (k, v) ∈ support z ↔ lookup z k = some v :=
  ⟨h.lookup_of_mem, fun hl => mem_support.2 (by rw [h.lookup_eq_some.1 hl]; exact one_ne_zero)⟩

omit [DecidableEq κ] [DecidableEq ν] in
/-- A `filterMap` that keeps the key of each record it keeps keeps the keys distinct. -/
theorem nodup_map_fst_filterMap {β γ : Type} (φ : κ × β → Option (κ × γ))
    (hφ : ∀ a x, φ a = some x → x.1 = a.1) :
    ∀ {L : List (κ × β)}, (L.map Prod.fst).Nodup → ((L.filterMap φ).map Prod.fst).Nodup
  | [], _ => List.nodup_nil
  | a :: L, hL => by
    rw [List.map_cons, List.nodup_cons] at hL
    have ih := nodup_map_fst_filterMap φ hφ hL.2
    rw [List.filterMap_cons]
    cases ha : φ a with
    | none => exact ih
    | some x =>
      refine List.nodup_cons.2 ⟨fun hx => hL.1 ?_, ih⟩
      obtain ⟨y, hy, hyx⟩ := List.mem_map.1 hx
      obtain ⟨b, hb, hby⟩ := List.mem_filterMap.1 hy
      rw [← hφ a x ha, ← hyx, hφ b y hby]
      exact List.mem_map_of_mem _ hb

/-- A table whose row of each key `k` is `F k`. -/
structure HasRows (z : ZSet (κ × ν)) (F : κ → Option ν) : Prop where
  isTable : IsTable z
  lookup_eq : ∀ k, lookup z k = F k

theorem IsTable.hasRows {z : ZSet (κ × ν)} (h : IsTable z) : HasRows z (lookup z) :=
  ⟨h, fun _ => rfl⟩

/-- A collection with the content of a list of records with distinct keys has their rows. -/
theorem HasRows.of_equiv_ofList {z : ZSet (κ × ν)} {L : List (κ × ν)}
    (hL : (L.map Prod.fst).Nodup) (hz : Equiv z (ofList L)) {F : κ → Option ν}
    (hF : ∀ k v, (k, v) ∈ L ↔ F k = some v) : HasRows z F := by
  have hT := isTable_ofList hL
  have hzT := hT.of_equiv hz.symm
  refine ⟨hzT, fun k => Option.ext fun v => ?_⟩
  rw [Option.mem_def, Option.mem_def, hzT.lookup_congr hT fun v => hz (k, v), hT.lookup_eq_some,
    count_of_equiv_ofList (hL.of_map _) (Equiv.refl _), ← hF]
  split_ifs with h <;> simp [h]

/-- The records `(k, f k)` of distinct keys `ks`. -/
theorem hasRows_ofList_map {ks : List κ} (hks : ks.Nodup) (f : κ → ν) :
    HasRows (ofList (ks.map fun k => (k, f k))) fun k => if k ∈ ks then some (f k) else none :=
  HasRows.of_equiv_ofList (by simpa [List.map_map, Function.comp_def] using hks) (Equiv.refl _)
    fun k v => by
      simp only [List.mem_map, Prod.mk.injEq]
      constructor
      · rintro ⟨k, hk, rfl, rfl⟩
        rw [if_pos hk]
      · intro hv
        split_ifs at hv with hk
        exact ⟨k, hk, rfl, Option.some.inj hv⟩

/-- Mapping the values of a table maps its rows. -/
theorem HasRows.map {μ : Type} [DecidableEq μ] {z : ZSet (κ × ν)} {F : κ → Option ν}
    (h : HasRows z F) (f : κ → ν → μ) :
    HasRows (ZSet.map (fun a => (a.1, f a.1 a.2)) z) fun k => (F k).map (f k) := by
  have hz := h.isTable.isSet.equiv_ofList.map fun a => (a.1, f a.1 a.2)
  rw [map_ofList] at hz
  refine HasRows.of_equiv_ofList ?_ hz fun k w => ?_
  · simpa [List.map_map, Function.comp_def] using h.isTable.nodup_keys
  · simp only [List.mem_map, Prod.mk.injEq, ← h.lookup_eq]
    constructor
    · rintro ⟨⟨k', v⟩, hv, rfl, rfl⟩
      rw [h.isTable.mem_support_iff.1 hv]
      rfl
    · intro hw
      obtain ⟨v, hv, rfl⟩ := Option.map_eq_some'.1 hw
      exact ⟨(k, v), h.isTable.mem_support_iff.2 hv, rfl, rfl⟩

/-- `join_core` of two tables: a row for each key both have, made of the two rows. -/
theorem HasRows.joinCore {β μ γ : Type} [DecidableEq β] [DecidableEq μ] [DecidableEq γ]
    {A : ZSet (κ × β)} {F : κ → Option β} (hA : HasRows A F) {S : ZSet (κ × μ)}
    {G : κ → Option μ} (hS : HasRows S G) (g : κ → β → μ → γ) :
    HasRows (joinCore (fun k b v => [(k, g k b v)]) A S)
      fun k => (F k).bind fun b => (G k).map (g k b) := by
  have hj := (hA.isTable.isSet.equiv_ofList.joinCore (Equiv.refl S)).trans
    (hS.isTable.joinCore_equiv (fun k b v => (k, g k b v)) (support A))
  refine HasRows.of_equiv_ofList (nodup_map_fst_filterMap _ (fun a x hx => by
    obtain ⟨v, -, rfl⟩ := Option.map_eq_some'.1 hx; rfl) hA.isTable.nodup_keys) hj fun k w => ?_
  simp only [List.mem_filterMap, Option.map_eq_some', Prod.mk.injEq, ← hA.lookup_eq,
    ← hS.lookup_eq, Option.bind_eq_some]
  constructor
  · rintro ⟨⟨k', b⟩, hb, v, hv, rfl, rfl⟩
    exact ⟨b, hA.isTable.mem_support_iff.1 hb, v, hv, rfl⟩
  · rintro ⟨b, hb, v, hv, rfl⟩
    exact ⟨(k, b), hA.isTable.mem_support_iff.2 hb, v, hv, rfl, rfl⟩

/-- Filtering a table keeps the rows that pass. -/
theorem HasRows.filter {z : ZSet (κ × ν)} {F : κ → Option ν} (h : HasRows z F)
    (p : κ × ν → Bool) : HasRows (ZSet.filter p z) fun k => (F k).filter fun v => p (k, v) := by
  refine HasRows.of_equiv_ofList (L := (support z).filter p)
    (((List.filter_sublist _).map Prod.fst).nodup h.isTable.nodup_keys) (fun a => ?_) fun k v => ?_
  · rw [count_filter, h.isTable.isSet.equiv_ofList a, ← count_filter, filter_ofList]
  · rw [List.mem_filter, Option.filter_eq_some, h.isTable.mem_support_iff, h.lookup_eq,
      Option.mem_def]

/-- The keys `reduce` calls its logic on: those with a record of non-zero count. -/
def groupKeys (z : ZSet (κ × ν)) : List κ := ((support z).map Prod.fst).dedup

/-- The records of key `k` with non-zero count, each once with its count. -/
def group (z : ZSet (κ × ν)) (k : κ) : List (ν × ℤ) :=
  ((support z).filter fun a => a.1 = k).map fun a => (a.2, count z a)

/-- The logic over the slices of the given keys, each key's outputs becoming its rows. -/
def reduceKeys {μ : Type} (logic : κ → List (ν × ℤ) → Except Error (List (μ × ℤ) × List DataError))
    (slice : κ → List (ν × ℤ)) : List κ → Except Error (ZSet (κ × μ) × List DataError)
  | [] => pure ([], [])
  | k :: ks => do
    let r ← logic k (slice k)
    let rs ← reduceKeys logic slice ks
    pure (r.1.map (fun o => ((k, o.1), o.2)) ++ rs.1, r.2 ++ rs.2)

/-- `reduce`: the slice of a key is its records of non-zero count, sorted by `le`, the
order of the values. -/
def reduce {μ : Type} (le : ν → ν → Bool)
    (logic : κ → List (ν × ℤ) → Except Error (List (μ × ℤ) × List DataError))
    (z : ZSet (κ × ν)) : Except Error (ZSet (κ × μ) × List DataError) :=
  reduceKeys logic (fun k => (group z k).mergeSort fun a b => le a.1 b.1) (groupKeys z)

theorem nodup_groupKeys (z : ZSet (κ × ν)) : (groupKeys z).Nodup := List.nodup_dedup _

@[simp] theorem mem_groupKeys {z : ZSet (κ × ν)} {k : κ} :
    k ∈ groupKeys z ↔ ∃ v, count z (k, v) ≠ 0 := by
  simp [groupKeys, List.mem_dedup]

theorem mem_group {z : ZSet (κ × ν)} {k : κ} {v : ν} {c : ℤ} :
    (v, c) ∈ group z k ↔ count z (k, v) ≠ 0 ∧ c = count z (k, v) := by
  simp only [group, List.mem_map, List.mem_filter, mem_support, decide_eq_true_eq, Prod.mk.injEq]
  constructor
  · rintro ⟨a, ⟨ha, rfl⟩, rfl, rfl⟩; exact ⟨ha, rfl⟩
  · rintro ⟨ha, rfl⟩; exact ⟨(k, v), ⟨ha, rfl⟩, rfl, rfl⟩

theorem nodup_group (z : ZSet (κ × ν)) (k : κ) : (group z k).Nodup :=
  ((nodup_support z).filter _).map_on fun a ha b hb hab => by
    simp only [List.mem_filter, decide_eq_true_eq] at ha hb
    exact Prod.ext (ha.2.trans hb.2.symm) (congrArg Prod.fst hab)

omit [DecidableEq κ] [DecidableEq ν] in
/-- A logic that gives every key at most one row, of count one, makes at most one row per
key. -/
theorem reduceKeys_eq_ofList_filterMap {μ : Type}
    {logic : κ → List (ν × ℤ) → Except Error (List (μ × ℤ) × List DataError)}
    {slice : κ → List (ν × ℤ)} (F : κ → Option μ) (G : κ → List DataError) :
    ∀ ks : List κ, (∀ k ∈ ks, logic k (slice k) = .ok ((F k).toList.map (·, 1), G k)) →
      reduceKeys logic slice ks =
        .ok (ofList (ks.filterMap fun k => (F k).map (k, ·)), ks.flatMap G)
  | [], _ => rfl
  | k :: ks, h => by
    rw [reduceKeys, h k (List.mem_cons_self _ _), ok_bind, reduceKeys_eq_ofList_filterMap F G ks
      fun k' hk' => h k' (List.mem_cons_of_mem _ hk'), ok_bind, List.filterMap_cons]
    cases F k <;> rfl

omit [DecidableEq κ] [DecidableEq ν] in
/-- A logic that gives every key one row of count one, logging anything, makes one row per
key. -/
theorem reduceKeys_exists_ofList {μ : Type}
    {logic : κ → List (ν × ℤ) → Except Error (List (μ × ℤ) × List DataError)}
    {slice : κ → List (ν × ℤ)} (F : κ → μ) :
    ∀ ks : List κ, (∀ k ∈ ks, ∃ log, logic k (slice k) = .ok ([(F k, 1)], log)) →
      ∃ log, reduceKeys logic slice ks = .ok (ofList (ks.map fun k => (k, F k)), log)
  | [], _ => ⟨[], rfl⟩
  | k :: ks, h => by
    obtain ⟨l, hl⟩ := h k (List.mem_cons_self _ _)
    obtain ⟨ls, hls⟩ := reduceKeys_exists_ofList F ks fun k' hk' => h k' (List.mem_cons_of_mem _ hk')
    exact ⟨l ++ ls, by rw [reduceKeys, hl, ok_bind, hls, ok_bind]; rfl⟩

omit [DecidableEq κ] [DecidableEq ν] in
/-- The keys of the rows such a logic makes: those given a row. -/
theorem map_fst_filterMap_pair {μ : Type} (F : κ → Option μ) (ks : List κ) :
    (ks.filterMap fun k => (F k).map (k, ·)).map Prod.fst = ks.filter fun k => (F k).isSome := by
  induction ks with
  | nil => rfl
  | cons k ks ih => cases h : F k <;> simp [List.filterMap_cons, List.filter_cons, h, ih]

/-- `map` with a function that can stop the worker (`unwrap_with_reporter`, `expect`): the
first update whose record fails gives the error. -/
def mapE {α β : Type} (f : α → Except Error β) : ZSet α → Except Error (ZSet β)
  | [] => pure []
  | (a, d) :: z => do
    let b ← f a
    let rest ← mapE f z
    pure ((b, d) :: rest)

/-- `flat_map` with a function that can fail. -/
def flatMapE {α β : Type} (f : α → Except Error (List β)) : ZSet α → Except Error (ZSet β)
  | [] => pure []
  | (a, d) :: z => do
    let bs ← f a
    let rest ← flatMapE f z
    pure (bs.map (·, d) ++ rest)

theorem mapE_eq_ok {α β : Type} {f : α → Except Error β} (g : α → β) :
    ∀ z : ZSet α, (∀ u ∈ z, f u.1 = .ok (g u.1)) → mapE f z = .ok (map g z)
  | [], _ => rfl
  | (a, d) :: z, h => by
    rw [mapE, h (a, d) (List.mem_cons_self _ _), ok_bind,
      mapE_eq_ok g z fun u hu => h u (List.mem_cons_of_mem _ hu), ok_bind]
    rfl

theorem flatMapE_eq_ok {α β : Type} {f : α → Except Error (List β)} (g : α → List β) :
    ∀ z : ZSet α, (∀ u ∈ z, f u.1 = .ok (g u.1)) → flatMapE f z = .ok (flatMap g z)
  | [], _ => rfl
  | (a, d) :: z, h => by
    rw [flatMapE, h (a, d) (List.mem_cons_self _ _), ok_bind,
      flatMapE_eq_ok g z fun u hu => h u (List.mem_cons_of_mem _ hu), ok_bind]
    rfl

/-- `flat_map` with a function that can fail, and that logs: each update's record gives at
most one output, with the update's diff, and the logs come in the order of the updates. -/
def flatMapLog {α β : Type} (f : α → Except Error (Option β × List DataError)) :
    ZSet α → Except Error (ZSet β × List DataError)
  | [] => pure ([], [])
  | (a, d) :: z => do
    let r ← f a
    let rs ← flatMapLog f z
    pure (r.1.toList.map (·, d) ++ rs.1, r.2 ++ rs.2)

theorem flatMapLog_eq_ok {α β : Type} {f : α → Except Error (Option β × List DataError)}
    (g : α → Option β) (l : α → List DataError) :
    ∀ z : ZSet α, (∀ u ∈ z, f u.1 = .ok (g u.1, l u.1)) →
      flatMapLog f z = .ok (flatMap (fun a => (g a).toList) z, List.flatMap z fun u => l u.1)
  | [], _ => rfl
  | (a, d) :: z, h => by
    rw [flatMapLog, h (a, d) (List.mem_cons_self _ _), ok_bind,
      flatMapLog_eq_ok g l z fun u hu => h u (List.mem_cons_of_mem _ hu), ok_bind]
    rfl

/-- A `flat_map` whose function fails on one update fails. -/
theorem flatMapLog_exists_error {α β : Type} {f : α → Except Error (Option β × List DataError)} :
    ∀ {z : ZSet α}, (∃ u ∈ z, ∃ e, f u.1 = .error e) → ∃ e, flatMapLog f z = .error e
  | [], ⟨_, hu, _⟩ => absurd hu (List.not_mem_nil _)
  | (a, d) :: z, ⟨u, hu, e, he⟩ => by
    rw [flatMapLog]
    cases hfa : f a with
    | error e' => exact ⟨e', rfl⟩
    | ok r =>
      rcases List.mem_cons.1 hu with rfl | hu
      · rw [he] at hfa; cases hfa
      · obtain ⟨e', he'⟩ := flatMapLog_exists_error ⟨u, hu, e, he⟩
        exact ⟨e', by rw [ok_bind, he', error_bind]⟩

end ZSet
end Pathway
