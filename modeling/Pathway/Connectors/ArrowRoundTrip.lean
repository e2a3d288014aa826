import Mathlib.Algebra.Order.BigOperators.Group.List
import Mathlib.Algebra.Order.BigOperators.GroupWithZero.List
import Mathlib.Data.List.GetD
import Pathway.Connectors.ArrowEncoder

/-! What the Arrow encoder gives for a column of a type, read back by Arrow's layout. The
values a type admits, the list elements and the bytes a value holds, and what a row should
read back as are specifications, not code: the writer's contract with the Arrow readers.
`Encodes` bundles what the encoder does on one type; it is proved for each kind of type from
the types it is built of, and `encodes` assembles it for every supported type. -/
namespace Pathway
namespace Arrow

mutual
/-- Whether a value fits a type: `None` only where the type is optional, a tuple of the
type's arity with fitting members, a list of fitting elements, an n-dimensional array of the
array's element type, and a Python object whose `bincode` serialisation succeeds. -/
def fits (conv : Conversions) : EngineType → Value → Bool
  | .optional t, v => v == .none || fits conv t v
  | .bool, .bool _ | .int, .int _ | .float, .float _ | .string, .string _ | .json, .json _
  | .pointer, .pointer _ | .bytes, .bytes _ | .duration, .duration _
  | .dateTimeNaive, .dateTimeNaive _ | .dateTimeUtc, .dateTimeUtc _ => true
  | .pyObjectWrapper, .pyObjectWrapper h => (conv.bincode (.pyObjectWrapper h)).isSome
  | .list t, .tuple vs => vs.all fun v => fits conv t v
  | .tuple ts, .tuple vs => fitsAll conv ts vs
  | .array _ .int, .intArray _ | .array _ .float, .floatArray _ => true
  | _, _ => false
/-- Members fitting the types of a tuple, one for one. -/
def fitsAll (conv : Conversions) : List EngineType → List Value → Bool
  | [], [] => true
  | t :: ts, v :: vs => fits conv t v && fitsAll conv ts vs
  | _, _ => false
end

mutual
/-- A count over a value by its type: `perItem` for each list element, the shape's and the
elements' of an n-dimensional array included, and `scalar` of every other value. -/
def nestedCount (scalar : Value → ℕ) (perItem : ℕ) : EngineType → Value → ℕ
  | .optional t, v => nestedCount scalar perItem t v
  | .list t, .tuple vs => perItem * vs.length + (vs.map fun v => nestedCount scalar perItem t v).sum
  | .tuple ts, .tuple vs => nestedCountAll scalar perItem ts vs
  | .array _ _, .intArray a => perItem * (a.shape.length + a.elems.length)
  | .array _ _, .floatArray a => perItem * (a.shape.length + a.elems.length)
  | _, v => scalar v
/-- The count over the members of a tuple. -/
def nestedCountAll (scalar : Value → ℕ) (perItem : ℕ) : List EngineType → List Value → ℕ
  | t :: ts, v :: vs => nestedCount scalar perItem t v + nestedCountAll scalar perItem ts vs
  | _, _ => 0
end

/-- The bytes a scalar puts into a string or binary array: its text or its bytes. -/
def scalarBytes (conv : Conversions) : Value → ℕ
  | .string s => s.utf8ByteSize
  | .pointer p => (conv.pointerToString p).utf8ByteSize
  | .json j => (conv.jsonToString j).utf8ByteSize
  | .bytes b => b.length
  | .pyObjectWrapper h => ((conv.bincode (.pyObjectWrapper h)).getD []).length
  | _ => 0

/-- The number of list elements in a value: what the list arrays built for it hold. -/
def nestedListLength : EngineType → Value → ℕ := nestedCount (fun _ => 0) 1

/-- The bytes of the strings and binaries in a value: what the string and binary arrays
built for it hold. -/
def nestedByteLength (conv : Conversions) : EngineType → Value → ℕ :=
  nestedCount (scalarBytes conv) 0

/-- The fixed scalar mapping: booleans, integers, floats, strings and bytes unchanged,
durations and date-times as microseconds, pointers and JSON as text, a Python object as its
`bincode` bytes. -/
def scalarRow (conv : Conversions) : Value → ArrowValue
  | .bool b => .bool b
  | .int i => .int i
  | .float f => .float f
  | .string s => .utf8 s
  | .bytes b => .binary b
  | .duration d => .int (conv.durationMicros d)
  | .dateTimeNaive t => .int (conv.naiveMicros t)
  | .dateTimeUtc t => .int (conv.utcMicros t)
  | .pointer p => .utf8 (conv.pointerToString p)
  | .json j => .utf8 (conv.jsonToString j)
  | .pyObjectWrapper h => match conv.bincode (.pyObjectWrapper h) with
    | some b => .binary b
    | none => .null
  | _ => .null

mutual
/-- What a row should read back as: null for `None`, a scalar by the fixed mapping, the
members of a tuple or a list in order, and an n-dimensional array as its shape and its
elements in logical row-major order. -/
def expectedRow (conv : Conversions) : EngineType → Value → ArrowValue
  | _, .none => .null
  | .optional t, v => expectedRow conv t v
  | .list t, .tuple vs => .list (vs.map fun v => expectedRow conv t v)
  | .tuple ts, .tuple vs => .struct (expectedFields conv ts vs)
  | .array _ _, .intArray a =>
    .struct [.list (a.shape.map fun (d : ℕ) => .int d), .list (a.elems.map .int)]
  | .array _ _, .floatArray a =>
    .struct [.list (a.shape.map fun (d : ℕ) => .int d), .list (a.elems.map .float)]
  | _, v => scalarRow conv v
/-- What the members of a tuple should read back as. -/
def expectedFields (conv : Conversions) : List EngineType → List Value → List ArrowValue
  | t :: ts, v :: vs => expectedRow conv t v :: expectedFields conv ts vs
  | _, _ => []
end

/-- What the encoder does with a column of type `T` encoded as `A`: on values that fit `T`
or are `None`, with few enough list elements and bytes for 32-bit offsets, it builds an
array of `A` with a row per value, well formed, null exactly at the `None`s, each row reading
back as expected. -/
def Encodes (conv : Conversions) (A : ArrowDataType) (T : EngineType) : Prop :=
  ∀ values : List Value, (∀ v ∈ values, v = .none ∨ fits conv T v) →
    (values.map (nestedListLength T)).sum < 2 ^ 31 →
    (values.map (nestedByteLength conv T)).sum < 2 ^ 31 →
    ∃ arr, arrayForType conv A values = .ok arr ∧ arr.len = values.length ∧ arr.dataType = A ∧
      arr.WellFormed ∧ ∀ i (hi : i < values.length),
        arr.isNull i = (values[i] == .none) ∧ arr.row i = expectedRow conv T values[i]

/-- The cases of `fits` and `expectedRow` the proofs read, so that no proof unfolds them. -/
theorem fits_optional (conv : Conversions) (t : EngineType) (v : Value) :
    fits conv (.optional t) v = (v == .none || fits conv t v) := rfl
theorem fits_list_tuple (conv : Conversions) (t : EngineType) (vs : List Value) :
    fits conv (.list t) (.tuple vs) = vs.all fun v => fits conv t v := rfl
theorem expectedRow_list_tuple (conv : Conversions) (t : EngineType) (vs : List Value) :
    expectedRow conv (.list t) (.tuple vs) = .list (vs.map fun v => expectedRow conv t v) := rfl
theorem expectedFields_cons (conv : Conversions) (t : EngineType) (ts : List EngineType) (v : Value)
    (vs : List Value) :
    expectedFields conv (t :: ts) (v :: vs) = expectedRow conv t v :: expectedFields conv ts vs := rfl

theorem fits_none (conv : Conversions) (T : EngineType) : fits conv T .none = T.isOptional := by
  cases T with
  | array _ e => cases e <;> rfl
  | _ => rfl

@[simp] theorem expectedRow_none (conv : Conversions) (T : EngineType) :
    expectedRow conv T .none = .null := by
  cases T <;> rfl

@[simp] theorem expectedRow_optional (conv : Conversions) (t : EngineType) (v : Value) :
    expectedRow conv (.optional t) v = expectedRow conv t v := by
  cases v <;> first | rfl | exact (expectedRow_none conv t).symm

theorem arrayOfSimpleType_eq {α : Type} {values : List Value}
    {toSimpleType : Value → Except WriteError α} (g : Value → α)
    (h : ∀ v ∈ values, v ≠ .none → toSimpleType v = .ok (g v)) :
    arrayOfSimpleType values toSimpleType =
      .ok (values.map fun v => if v = .none then none else some (g v)) :=
  mapM_eq_ok _ values fun v hv => by by_cases hn : v = .none <;> simp [hn, h v hv]

/-- A type whose values become the slots of a primitive array, built once the slots are
converted and their `size`s, the bytes a string or binary array holds, fit 32-bit offsets. -/
theorem encodes_of_slots {α : Type} {conv : Conversions} {A : ArrowDataType} {T : EngineType}
    (mk : List (Option α) → ArrowArray) (toSlot : Value → Except WriteError α)
    (read : α → ArrowValue) (d : α) (size : α → ℕ)
    (harr : ∀ values slots, arrayOfSimpleType values toSlot = .ok slots →
      (slots.map fun slot => (slot.map size).getD 0).sum < 2 ^ 31 →
        arrayForType conv A values = .ok (mk slots))
    (hmk : ∀ s i, (mk s).len = s.length ∧ (mk s).dataType = A ∧ (mk s).WellFormed ∧
      (mk s).isNull i = slotIsNull s i ∧ (mk s).row i = slotRow read s i)
    (hslot : ∀ v, v ≠ .none → fits conv T v →
      ∃ a, toSlot v = .ok a ∧ read a = expectedRow conv T v ∧ size a ≤ nestedByteLength conv T v) :
    Encodes conv A T := by
  intro values hfit _ hbytes
  let g : Value → α := fun v => ((toSlot v).toOption).getD d
  have hg : ∀ v ∈ values, v ≠ .none → toSlot v = .ok (g v) ∧ read (g v) = expectedRow conv T v ∧
      size (g v) ≤ nestedByteLength conv T v := by
    intro v hv hn
    obtain ⟨a, ha, hread, hsize⟩ := hslot v hn ((hfit v hv).resolve_left hn)
    simp only [g, ha]
    exact ⟨rfl, hread, hsize⟩
  let s := values.map fun v => if v = .none then none else some (g v)
  have hsize : (s.map fun slot => (slot.map size).getD 0).sum < 2 ^ 31 :=
    calc (s.map fun slot => (slot.map size).getD 0).sum
        = (values.map fun v => if v = .none then 0 else size (g v)).sum := by
          simp only [s, List.map_map]
          congr 1
          exact List.map_congr_left fun v _ => by by_cases hn : v = .none <;> simp [hn]
      _ ≤ (values.map (nestedByteLength conv T)).sum := List.sum_le_sum fun v hv => by
          by_cases hn : v = .none
          · simp [hn]
          · simpa [hn] using (hg v hv hn).2.2
      _ < 2 ^ 31 := hbytes
  refine ⟨mk s, harr values s (arrayOfSimpleType_eq g fun v hv hn => (hg v hv hn).1) hsize,
    by rw [(hmk s 0).1, List.length_map], (hmk s 0).2.1, (hmk s 0).2.2.1, fun i hi => ?_⟩
  obtain ⟨-, -, -, hnull, hrow⟩ := hmk s i
  rw [hnull, hrow, slotRow, slotIsNull, List.getElem?_map, List.getElem?_eq_getElem hi]
  by_cases hn : values[i] = .none
  · simp [hn]
  · simp [hn, (hg _ (List.getElem_mem hi) hn).2.1]

theorem byteOffsetsFit_of_lt {α : Type} {large : Bool} {size : α → ℕ} {slots : List (Option α)}
    (h : (slots.map fun slot => (slot.map size).getD 0).sum < 2 ^ 31) :
    byteOffsetsFit large size slots = true := by
  unfold byteOffsetsFit
  cases large <;> simp only [if_true, if_false, Bool.false_eq_true, decide_eq_true_eq] <;> omega

/-- A type of a fixed-width arm of `array_for_type` (boolean, integer, float, timestamp): its
array is that of the converted slots, with no further check. -/
theorem encodes_of_fixedSlots {α : Type} {conv : Conversions} {A : ArrowDataType} {T : EngineType}
    (mk : List (Option α) → ArrowArray) (toSlot : Value → Except WriteError α)
    (read : α → ArrowValue) (d : α)
    (harr : ∀ values, arrayForType conv A values = mk <$> arrayOfSimpleType values toSlot)
    (hmk : ∀ s i, (mk s).len = s.length ∧ (mk s).dataType = A ∧ (mk s).WellFormed ∧
      (mk s).isNull i = slotIsNull s i ∧ (mk s).row i = slotRow read s i)
    (hslot : ∀ v, v ≠ .none → fits conv T v → ∃ a, toSlot v = .ok a ∧ read a = expectedRow conv T v) :
    Encodes conv A T :=
  encodes_of_slots mk toSlot read d (fun _ => 0) (fun values _ h _ => by rw [harr, h]; rfl) hmk
    fun v hn hv => (hslot v hn hv).imp fun _ ⟨ha, hr⟩ => ⟨ha, hr, Nat.zero_le _⟩

theorem encodes_boolean (conv : Conversions) : Encodes conv .boolean .bool :=
  encodes_of_fixedSlots .boolean booleanSlot .bool false
    (fun _ => rfl) (fun _ _ => ⟨rfl, rfl, trivial, rfl, rfl⟩) fun v _ hv => by
    cases v <;> first | exact ⟨_, rfl, rfl⟩ | cases hv

theorem encodes_int64 (conv : Conversions) {T : EngineType} (hT : T = .int ∨ T = .duration) :
    Encodes conv .int64 T :=
  encodes_of_fixedSlots .int64 (int64Slot conv) .int 0
    (fun _ => rfl) (fun _ _ => ⟨rfl, rfl, trivial, rfl, rfl⟩) fun v _ hv => by
    rcases hT with rfl | rfl <;> cases v <;> first | exact ⟨_, rfl, rfl⟩ | cases hv

theorem encodes_float64 (conv : Conversions) : Encodes conv .float64 .float :=
  encodes_of_fixedSlots .float64 float64Slot .float ⟨0⟩
    (fun _ => rfl) (fun _ _ => ⟨rfl, rfl, trivial, rfl, rfl⟩) fun v _ hv => by
    cases v <;> first | exact ⟨_, rfl, rfl⟩ | cases hv

theorem encodes_utf8 (conv : Conversions) {T : EngineType}
    (hT : T = .string ∨ T = .json ∨ T = .pointer) : Encodes conv .utf8 T :=
  encodes_of_slots .utf8 (utf8Slot conv) .utf8 "" String.utf8ByteSize
    (fun _ slots h hfit => by
      rw [arrayForType, h, ok_bind, stringArrayFrom, if_pos (byteOffsetsFit_of_lt hfit)]
      rfl)
    (fun _ _ => ⟨rfl, rfl, trivial, rfl, rfl⟩) fun v _ hv => by
    rcases hT with rfl | rfl | rfl <;> cases v <;> first | exact ⟨_, rfl, rfl, le_rfl⟩ | cases hv

theorem encodes_binary (conv : Conversions) (large : Bool) {T : EngineType}
    (hT : T = .bytes ∨ T = .pyObjectWrapper) :
    Encodes conv (if large then .largeBinary else .binary) T :=
  encodes_of_slots (.binary large) (binarySlot conv (if large then .largeBinary else .binary))
    .binary [] List.length
    (fun _ slots h hfit => by
      cases large <;> simp only [Bool.false_eq_true, if_false, if_true] at h ⊢ <;>
        rw [arrayForType, h, ok_bind, binaryArrayFrom, if_pos (byteOffsetsFit_of_lt hfit)] <;> rfl)
    (fun _ _ => ⟨rfl, rfl, trivial, rfl, rfl⟩) fun v _ hv => by
    rcases hT with rfl | rfl <;> cases v <;> try first | exact ⟨_, rfl, rfl, le_rfl⟩ | cases hv
    obtain ⟨b, hb⟩ := Option.isSome_iff_exists.1 hv
    exact ⟨b, by simp [binarySlot, hb], show _ = scalarRow conv _ by simp [scalarRow, hb],
      by simp [nestedByteLength, nestedCount, scalarBytes, hb]⟩

theorem encodes_timestampNaive (conv : Conversions) :
    Encodes conv (.timestamp none) .dateTimeNaive :=
  encodes_of_fixedSlots (.timestamp none) (timestampNaiveSlot conv) .int 0
    (fun _ => rfl) (fun _ _ => ⟨rfl, rfl, trivial, rfl, rfl⟩) fun v _ hv => by
    cases v <;> first | exact ⟨_, rfl, rfl⟩ | cases hv

theorem encodes_timestampUtc (conv : Conversions) (tz : String) :
    Encodes conv (.timestamp (some tz)) .dateTimeUtc :=
  encodes_of_fixedSlots (.timestamp (some tz)) (timestampUtcSlot conv tz) .int 0
    (fun _ => rfl) (fun _ _ => ⟨rfl, rfl, trivial, rfl, rfl⟩) fun v _ hv => by
    cases v <;> first | exact ⟨_, rfl, rfl⟩ | cases hv

/-- An optional type is encoded as its wrapped type, `None` being a null. -/
theorem encodes_optional {conv : Conversions} {A : ArrowDataType} {t : EngineType}
    (h : Encodes conv A t) : Encodes conv A (.optional t) := by
  intro values hfit hbound hbytes
  have hfit' : ∀ v ∈ values, v = .none ∨ fits conv t v := fun v hv => by
    rcases hfit v hv with hn | hn
    · exact .inl hn
    · simpa only [fits_optional, Bool.or_eq_true, beq_iff_eq] using hn
  obtain ⟨arr, harr, hlen, hdt, hwf, hrow⟩ := h values hfit' hbound hbytes
  exact ⟨arr, harr, hlen, hdt, hwf, fun i hi => by rw [expectedRow_optional]; exact hrow i hi⟩

/-- Where each list begins when they are laid out from `start`, then where the last ends. -/
def listOffsets : ℕ → List Value → List ℕ
  | start, [] => [start]
  | start, v :: vs => start :: listOffsets (start + (listItems v).length) vs

/-- The loop of `array_of_lists` lays the items out one list after the other. -/
theorem foldl_listsStep : ∀ (values : List Value) (s : ListsLoop),
    (values.foldl listsStep s).flatValues = s.flatValues ++ values.flatMap listItems ∧
    (values.foldl listsStep s).offsets ++ [(values.foldl listsStep s).flatValues.length] =
      s.offsets ++ listOffsets s.flatValues.length values ∧
    (values.foldl listsStep s).defined = s.defined ++ values.map fun v => v.asTuple.isSome
  | [], s => by simp [listOffsets]
  | v :: vs, s => by
    obtain ⟨h1, h2, h3⟩ := foldl_listsStep vs (listsStep s v)
    have hstep : listsStep s v = ⟨s.flatValues ++ listItems v, s.offsets ++ [s.flatValues.length],
        s.defined ++ [v.asTuple.isSome]⟩ := by
      unfold listsStep listItems
      cases v.asTuple <;> simp
    rw [List.foldl_cons, h2, h1, h3, hstep]
    simp [listOffsets, List.append_assoc]

theorem length_listOffsets : ∀ (start : ℕ) (vs : List Value),
    (listOffsets start vs).length = vs.length + 1
  | _, [] => rfl
  | _, _ :: vs => by simp [listOffsets, length_listOffsets _ vs]

theorem mem_listOffsets : ∀ (start : ℕ) (vs : List Value), ∀ o ∈ listOffsets start vs,
    start ≤ o ∧ o ≤ start + (vs.flatMap listItems).length
  | _, [], o, ho => by simp_all [listOffsets]
  | start, v :: vs, o, ho => by
    rcases List.mem_cons.1 ho with rfl | ho
    · simp
    · have := mem_listOffsets _ vs o ho
      simp only [List.flatMap_cons, List.length_append]
      omega

theorem pairwise_listOffsets : ∀ (start : ℕ) (vs : List Value),
    (listOffsets start vs).Pairwise (· ≤ ·)
  | _, [] => List.pairwise_singleton _ _
  | start, v :: vs => List.pairwise_cons.2
    ⟨fun o ho => by have := (mem_listOffsets _ vs o ho).1; omega, pairwise_listOffsets _ vs⟩

theorem getLast_listOffsets : ∀ (start : ℕ) (vs : List Value),
    (listOffsets start vs).getLast? = some (start + (vs.flatMap listItems).length)
  | _, [] => rfl
  | start, v :: vs => by
    rw [listOffsets, List.getLast?_cons, getLast_listOffsets]
    simp [Nat.add_assoc]

/-- The offset of list `i`: the items of the lists before it. -/
theorem getD_listOffsets : ∀ (start : ℕ) (vs : List Value) (i : ℕ), i ≤ vs.length →
    (listOffsets start vs).getD i 0 = start + ((vs.take i).flatMap listItems).length
  | _, [], 0, _ | _, _ :: _, 0, _ => rfl
  | start, v :: vs, i + 1, hi => by
    rw [listOffsets, List.getD_cons_succ, getD_listOffsets _ vs i (by simpa using hi)]
    simp [Nat.add_assoc]

/-- The items of list `i` among all the items: as many as it has, from its offset on. -/
theorem take_drop_flatMap {α β : Type} (f : α → List β) (l : List α) (i : ℕ) (hi : i < l.length) :
    ((l.flatMap f).drop ((l.take i).flatMap f).length).take (f l[i]).length = f l[i] := by
  have hsplit : l.flatMap f = (l.take i).flatMap f ++ (f l[i] ++ (l.drop (i + 1)).flatMap f) := by
    conv_lhs => rw [← List.take_append_drop i l]
    rw [List.flatMap_append, List.drop_eq_getElem_cons hi, List.flatMap_cons]
  rw [hsplit, List.drop_left, List.take_left]

/-- Reading a run of rows that read back as the elements of a list. -/
theorem map_range'_eq {β γ : Type} (l : List β) (g : ℕ → γ) (f : β → γ)
    (h : ∀ j (hj : j < l.length), g j = f l[j]) :
    ∀ (a n : ℕ), a + n ≤ l.length → (List.range' a n).map g = ((l.drop a).take n).map f
  | _, 0, _ => rfl
  | a, n + 1, han => by
    rw [List.range'_succ, List.map_cons, List.drop_eq_getElem_cons (by omega), List.take_succ_cons,
      List.map_cons, h a (by omega), map_range'_eq l g f h (a + 1) n (by omega)]

/-- `array_of_lists` on values whose items the child encoder takes, with offsets that fit. -/
theorem arrayOfLists_eq {arrayForItems : List Value → Except WriteError ArrowArray}
    {values : List Value} {field : ArrowField} {use64bitSizeType : Bool} {arr : ArrowArray}
    (harr : arrayForItems (values.flatMap listItems) = .ok arr)
    (hlen : arr.len = (values.flatMap listItems).length)
    (hfit : (values.flatMap listItems).length < 2 ^ 31)
    (hnull : field.nullable = false → ∀ i < arr.len, arr.isNull i = false)
    (hdt : field.dataType = arr.dataType) :
    arrayOfLists arrayForItems values field use64bitSizeType = .ok (.list use64bitSizeType field
      (listOffsets 0 values) arr (values.map fun v => v.asTuple.isSome)) := by
  obtain ⟨hflat, hoffs, hdef⟩ := foldl_listsStep values ⟨[], [], []⟩
  simp only [List.nil_append, List.length_nil] at hflat hoffs hdef
  have hmap : (listOffsets 0 values).mapM (offsetOf use64bitSizeType) = .ok (listOffsets 0 values) := by
    have := mapM_eq_ok (f := offsetOf use64bitSizeType) id (listOffsets 0 values) fun o ho => by
      have := (mem_listOffsets 0 values o ho).2
      unfold offsetOf
      rw [if_pos (by split <;> omega)]
      rfl
    rwa [List.map_id] at this
  unfold arrayOfLists
  simp only [hoffs]
  simp only [hflat, hdef, harr, ok_bind, hmap]
  rw [offsetBufferNew, if_pos ⟨by simp [← List.length_pos, length_listOffsets],
    pairwise_listOffsets 0 values⟩, pure_eq_ok, ok_bind, listArrayNew, if_pos]
  · rfl
  refine ⟨?_, by simp [length_listOffsets], hnull, hdt⟩
  rw [getLast_listOffsets, Option.getD_some, hlen]
  omega

theorem getD_listOffsets_succ (values : List Value) (i : ℕ) (hi : i < values.length) :
    (listOffsets 0 values).getD (i + 1) 0 =
      (listOffsets 0 values).getD i 0 + (listItems values[i]).length := by
  rw [getD_listOffsets 0 values (i + 1) hi, getD_listOffsets 0 values i hi.le, List.take_succ,
    List.getElem?_eq_getElem hi, Option.toList_some, List.flatMap_append, List.length_append]
  simp only [List.flatMap_cons, List.flatMap_nil, List.append_nil, Nat.add_assoc]

theorem getD_listOffsets_le (values : List Value) (i : ℕ) (hi : i ≤ values.length) :
    (listOffsets 0 values).getD i 0 ≤ (values.flatMap listItems).length := by
  have hlt : i < (listOffsets 0 values).length := by rw [length_listOffsets]; omega
  rw [List.getD_eq_getElem _ _ hlt]
  simpa using (mem_listOffsets 0 values _ (List.getElem_mem hlt)).2

/-- The items of a column of list values, with what they hold, are counted in the column's
count. -/
theorem sum_flatMap_listItems_le (scalar : Value → ℕ) (perItem : ℕ) (t : EngineType) :
    ∀ values : List Value,
    perItem * (values.flatMap listItems).length +
      ((values.flatMap listItems).map (nestedCount scalar perItem t)).sum ≤
      (values.map (nestedCount scalar perItem (.list t))).sum
  | [] => by simp
  | v :: vs => by
    have ih := sum_flatMap_listItems_le scalar perItem t vs
    have hv : perItem * (listItems v).length +
        ((listItems v).map (nestedCount scalar perItem t)).sum ≤
        nestedCount scalar perItem (.list t) v := by
      cases v <;> simp [listItems, Value.asTuple, nestedCount]
    simp only [List.flatMap_cons, List.length_append, List.map_append, List.sum_append,
      List.map_cons, List.sum_cons, Nat.mul_add]
    omega

/-- A list type is encoded as a list array of its item type. -/
theorem encodes_list {conv : Conversions} {A : ArrowDataType} {t : EngineType}
    (h : Encodes conv A t) : Encodes conv (.list (.mk .singleElement A t.isOptional)) (.list t) := by
  intro values hfit hbound hbytes
  have hvals : ∀ v ∈ values, v = .none ∨ ∃ vs, v = .tuple vs ∧ ∀ x ∈ vs, fits conv t x := by
    intro v hv
    rcases hfit v hv with hn | hv'
    · exact .inl hn
    · cases v <;> first | exact .inr ⟨_, rfl, List.all_eq_true.1 hv'⟩ | cases hv'
  have hitems : ∀ x ∈ values.flatMap listItems, fits conv t x := by
    intro x hx
    obtain ⟨v, hv, hxv⟩ := List.mem_flatMap.1 hx
    rcases hvals v hv with rfl | ⟨vs, rfl, hvs⟩
    · simp [listItems, Value.asTuple] at hxv
    · exact hvs x hxv
  have hcount : (values.flatMap listItems).length +
      ((values.flatMap listItems).map (nestedListLength t)).sum ≤
      (values.map (nestedListLength (.list t))).sum := by
    simpa only [one_mul] using sum_flatMap_listItems_le (fun _ => 0) 1 t values
  have hitemBytes : ((values.flatMap listItems).map (nestedByteLength conv t)).sum ≤
      (values.map (nestedByteLength conv (.list t))).sum := by
    simpa only [zero_mul, zero_add] using sum_flatMap_listItems_le (scalarBytes conv) 0 t values
  obtain ⟨arr, harr, hlen, hdt, hwf, hrow⟩ :=
    h (values.flatMap listItems) (fun x hx => .inr (hitems x hx)) (by omega) (by omega)
  have hnull : t.isOptional = false → ∀ i < arr.len, arr.isNull i = false := fun ht i hi => by
    rw [hlen] at hi
    rw [(hrow i hi).1, beq_eq_false_iff_ne]
    intro hn
    have := hitems _ (List.getElem_mem hi)
    rw [hn, fits_none, ht] at this
    exact Bool.false_ne_true this
  have heq : arrayForType conv (.list (.mk .singleElement A t.isOptional)) values =
      .ok (.list false (.mk .singleElement A t.isOptional) (listOffsets 0 values) arr
        (values.map fun v => v.asTuple.isSome)) := by
    rw [arrayForType]
    exact arrayOfLists_eq harr hlen (by omega) hnull hdt.symm
  refine ⟨_, heq, by simp [ArrowArray.len, length_listOffsets], rfl,
    ⟨by simp [length_listOffsets], by cases values <;> rfl, pairwise_listOffsets 0 values,
      by rw [getLast_listOffsets, hlen, Nat.zero_add], hnull, hwf⟩, fun i hi => ?_⟩
  have hvalid : ∀ b, (values.map fun v => v.asTuple.isSome).getD i b = values[i].asTuple.isSome :=
    fun _ => by rw [List.getD_eq_getElem _ _ (by simpa using hi), List.getElem_map]
  rcases hvals _ (List.getElem_mem hi) with hn | ⟨vs, hvs, -⟩
  · simp only [ArrowArray.isNull, ArrowArray.row, hvalid, hn]
    simp [Value.asTuple]
  · have hn : values[i] ≠ .none := by rw [hvs]; exact Value.noConfusion
    refine ⟨by simp only [ArrowArray.isNull, hvalid, hvs]; simp [Value.asTuple], ?_⟩
    have hoff := getD_listOffsets_succ values i hi
    have hle := getD_listOffsets_le values (i + 1) hi
    rw [getD_listOffsets 0 values i hi.le, Nat.zero_add] at hoff
    rw [ArrowArray.row, hvalid, if_pos (by simp [hvs, Value.asTuple]), hoff,
      getD_listOffsets 0 values i hi.le, Nat.zero_add, Nat.add_sub_cancel_left,
      map_range'_eq _ arr.row (expectedRow conv t) (fun j hj => (hrow j hj).2) _ _ (by omega),
      take_drop_flatMap listItems values i hi, hvs]
    simp [listItems, Value.asTuple, expectedRow_list_tuple]

section Count
variable {scalar : Value → ℕ} {perItem : ℕ} (hs : scalar .none = 0)
include hs

theorem nestedCount_none : (T : EngineType) → nestedCount scalar perItem T .none = 0
  | .optional t => nestedCount_none t
  | .any | .bool | .int | .float | .pointer | .string | .bytes | .dateTimeNaive | .dateTimeUtc
  | .duration | .array _ _ | .json | .tuple _ | .list _ | .pyObjectWrapper | .future _ => hs

/-- The count over a tuple's members: its first member's, then the rest's. -/
theorem nestedCountAll_cons (t : EngineType) (ts : List EngineType) (r : List Value) :
    nestedCountAll scalar perItem (t :: ts) r =
      nestedCount scalar perItem t (r.headD .none) + nestedCountAll scalar perItem ts r.tail := by
  cases r with
  | nil => cases ts <;> simp [nestedCountAll, nestedCount_none hs]
  | cons x xs => rfl

theorem nestedCountAll_replicate_none : ∀ ts : List EngineType,
    nestedCountAll scalar perItem ts (List.replicate ts.length .none) = 0
  | [] => rfl
  | t :: ts => by
    rw [List.length_cons, List.replicate_succ, nestedCountAll, nestedCount_none hs,
      nestedCountAll_replicate_none ts]

/-- The count over rows of members: over their first column, then over the rest. -/
theorem sum_nestedCountAll_cons (t : EngineType) (ts : List EngineType) (rows : List (List Value)) :
    (rows.map (nestedCountAll scalar perItem (t :: ts))).sum =
      ((rows.map fun r => r.headD .none).map (nestedCount scalar perItem t)).sum +
        ((rows.map List.tail).map (nestedCountAll scalar perItem ts)).sum := by
  rw [show nestedCountAll scalar perItem (t :: ts) = fun r =>
      nestedCount scalar perItem t (r.headD .none) + nestedCountAll scalar perItem ts r.tail from
    funext (nestedCountAll_cons hs t ts), List.sum_map_add, List.map_map, List.map_map]
  rfl

end Count

/-- The columns of rows of `width` members: the first members, then the columns of the
rests. -/
def columnsOf : ℕ → List (List Value) → List (List Value)
  | 0, _ => []
  | n + 1, rows => rows.map (fun r => r.headD .none) :: columnsOf n (rows.map List.tail)

@[simp] theorem length_columnsOf : ∀ (n : ℕ) (rows : List (List Value)), (columnsOf n rows).length = n
  | 0, _ => rfl
  | n + 1, rows => by simp [columnsOf, length_columnsOf n]

theorem pushRow_eq : ∀ (columns : List (List Value)) (row : List Value),
    row.length = columns.length →
    pushRow columns row = .ok (List.zipWith (fun c x => c ++ [x]) columns row)
  | [], [], _ => rfl
  | c :: cs, x :: xs, h => by
    rw [pushRow, pushRow_eq cs xs (Nat.succ.inj h)]
    rfl
  | [], _ :: _, h | _ :: _, [], h => by simp at h

theorem zipWith_append_columnsOf_nil : ∀ acc : List (List Value),
    List.zipWith (· ++ ·) acc (columnsOf acc.length []) = acc
  | [] => rfl
  | a :: acc => by simp [columnsOf, zipWith_append_columnsOf_nil acc]

theorem zipWith_columnsOf_cons : ∀ (acc : List (List Value)) (r : List Value)
    (rows : List (List Value)), r.length = acc.length →
    List.zipWith (· ++ ·) (List.zipWith (fun c x => c ++ [x]) acc r) (columnsOf acc.length rows) =
      List.zipWith (· ++ ·) acc (columnsOf acc.length (r :: rows))
  | [], _, _, _ => rfl
  | a :: acc, x :: xs, rows, h => by
    simp only [List.length_cons, columnsOf, List.zipWith_cons_cons, List.map_cons,
      List.headD_cons, List.tail_cons, List.append_assoc, List.singleton_append]
    rw [zipWith_columnsOf_cons acc xs (rows.map List.tail) (Nat.succ.inj h)]
  | _ :: _, [], _, h => by simp at h

/-- The loop of `array_of_structs` appends each value's members to the columns. -/
theorem foldlM_structRow (n : ℕ) (row : Value → List Value) : ∀ (values : List Value)
    (acc : List (List Value)), acc.length = n →
    (∀ v ∈ values, structRow n v = .ok (row v) ∧ (row v).length = n) →
    values.foldlM (fun structColumns value => do pushRow structColumns (← structRow n value))
      acc = .ok (List.zipWith (· ++ ·) acc (columnsOf n (values.map row)))
  | [], acc, hacc, _ => by
    subst hacc
    exact congrArg Except.ok (zipWith_append_columnsOf_nil acc).symm
  | v :: vs, acc, hacc, h => by
    obtain ⟨hs, hl⟩ := h v (List.mem_cons_self _ _)
    subst hacc
    rw [List.foldlM_cons, hs, ok_bind, pushRow_eq acc _ hl, ok_bind,
      foldlM_structRow _ row vs _ (by simp [hl]) fun w hw => h w (List.mem_cons_of_mem _ hw),
      List.map_cons, ← zipWith_columnsOf_cons acc (row v) _ hl]

theorem zipWith_replicate_nil_append : ∀ cols : List (List Value),
    List.zipWith (· ++ ·) (List.replicate cols.length []) cols = cols
  | [] => rfl
  | c :: cols => by simp [List.replicate_succ, zipWith_replicate_nil_append cols]

theorem forall₂_replicate_none (conv : Conversions) : ∀ ts : List EngineType,
    List.Forall₂ (fun t x => x = .none ∨ fits conv t x) ts (List.replicate ts.length .none)
  | [] => .nil
  | _ :: ts => .cons (.inl rfl) (forall₂_replicate_none conv ts)

/-- `array_for_type` of the columns of rows whose members fit the fields' types: a column per
field, of the field's type with a row per row, null only at `None` members, and each row of
the columns reading back as the row's members. -/
theorem arrayForColumns_eq {conv : Conversions} {fields : List ArrowField} {ts : List EngineType}
    (hft : List.Forall₂ (fun f t => Encodes conv f.dataType t ∧ f.nullable = t.isOptional)
      fields ts) :
    ∀ (rows : List (List Value)) (validity : List Bool),
    (∀ r ∈ rows, List.Forall₂ (fun t x => x = .none ∨ fits conv t x) ts r) →
    (rows.map (nestedCountAll (fun _ => 0) 1 ts)).sum < 2 ^ 31 →
    (rows.map (nestedCountAll (scalarBytes conv) 0 ts)).sum < 2 ^ 31 →
    validity.length = rows.length →
    (∀ i (hi : i < rows.length), validity.getD i true = true →
      List.Forall₂ (fun t x => fits conv t x) ts rows[i]) →
    ∃ arrs, arrayForColumns conv fields (columnsOf fields.length rows) = .ok arrs ∧
      arrs.length = fields.length ∧
      (∀ p ∈ fields.zip arrs, p.2.dataType = p.1.dataType ∧ p.2.len = rows.length ∧
        (p.1.nullable = false → ∀ i < p.2.len, p.2.isNull i → validity.getD i true = false)) ∧
      ArrowArray.ColumnsWellFormed fields arrs validity ∧
      ∀ i (hi : i < rows.length), ArrowArray.columnRows arrs i = expectedFields conv ts rows[i] := by
  induction hft with
  | nil => exact fun _ _ _ _ _ _ _ => ⟨[], rfl, rfl, by simp, trivial, fun _ _ => rfl⟩
  | @cons f t fs ts hft _ ih =>
    intro rows validity hfit hbound hbytes hvlen hvalid
    obtain ⟨hEnc, hnullable⟩ := hft
    let column := rows.map fun r => r.headD .none
    have hclen : column.length = rows.length := List.length_map _ _
    have hsum : (rows.map (nestedCountAll (fun _ => 0) 1 (t :: ts))).sum =
        (column.map (nestedCount (fun _ => 0) 1 t)).sum +
          ((rows.map List.tail).map (nestedCountAll (fun _ => 0) 1 ts)).sum :=
      sum_nestedCountAll_cons rfl t ts rows
    have hsumBytes : (rows.map (nestedCountAll (scalarBytes conv) 0 (t :: ts))).sum =
        (column.map (nestedCount (scalarBytes conv) 0 t)).sum +
          ((rows.map List.tail).map (nestedCountAll (scalarBytes conv) 0 ts)).sum :=
      sum_nestedCountAll_cons rfl t ts rows
    obtain ⟨a, ha, halen, hadt, hawf, harow⟩ := hEnc column (fun x hmem => by
      obtain ⟨r, hr, rfl⟩ := List.mem_map.1 hmem
      obtain ⟨x, xs, hx, -, rfl⟩ := List.forall₂_cons_left_iff.1 (hfit r hr)
      exact hx) (show (column.map (nestedCount (fun _ => 0) 1 t)).sum < 2 ^ 31 by omega)
      (show (column.map (nestedCount (scalarBytes conv) 0 t)).sum < 2 ^ 31 by omega)
    obtain ⟨rest, hrest, hrlen, hrzip, hrwf, hrrows⟩ := ih (rows.map List.tail) validity
      (fun r hmem => by
        obtain ⟨r, hr, rfl⟩ := List.mem_map.1 hmem
        obtain ⟨x, xs, -, hxs, rfl⟩ := List.forall₂_cons_left_iff.1 (hfit r hr)
        exact hxs)
      (by omega) (by omega) (by simpa using hvlen) fun i hi hv => by
        rw [List.getElem_map]
        obtain ⟨x, xs, -, hxs, hrow⟩ :=
          List.forall₂_cons_left_iff.1 (hvalid i (by simpa using hi) hv)
        rw [hrow]
        exact hxs
    have hlen : a.len = rows.length := halen.trans hclen
    have hnn : f.nullable = false → ∀ i < a.len, a.isNull i → validity.getD i true = false := by
      intro hf i hi hnull
      rw [hlen] at hi
      by_contra hv
      obtain ⟨x, xs, hx, -, hrow⟩ :=
        List.forall₂_cons_left_iff.1 (hvalid i hi (by simpa using hv))
      rw [(harow i (hclen ▸ hi)).1, List.getElem_map, hrow, List.headD_cons, beq_iff_eq] at hnull
      rw [hnull, fits_none, ← hnullable, hf] at hx
      exact Bool.false_ne_true hx
    refine ⟨a :: rest, ?_, by simp [hrlen], ?_, ⟨by rw [hlen, hvlen], hnn, hawf, hrwf⟩, ?_⟩
    · rw [List.length_cons, columnsOf, arrayForColumns_cons, ha, ok_bind, hrest, ok_bind]
      rfl
    · rw [List.zip_cons_cons, List.forall_mem_cons]
      exact ⟨⟨hadt, hlen, hnn⟩, fun p hp => by simpa using hrzip p hp⟩
    · intro i hi
      obtain ⟨x, xs, -, -, hrow⟩ := List.forall₂_cons_left_iff.1 (hfit _ (List.getElem_mem hi))
      have hx := (harow i (hclen ▸ hi)).2
      have hxs := hrrows i (by simpa using hi)
      simp only [column, List.getElem_map, hrow, List.headD_cons, List.tail_cons] at hx hxs
      rw [ArrowArray.columnRows, hx, hxs, hrow]
      rfl

/-- A type whose non-`None` values the writer splits into members fitting the types of a
struct's fields is encoded as a struct array of those fields. -/
theorem encodes_struct {conv : Conversions} {fields : List ArrowField} {ts : List EngineType}
    {T : EngineType} (split : Value → List Value)
    (hft : List.Forall₂ (fun f t => Encodes conv f.dataType t ∧ f.nullable = t.isOptional)
      fields ts)
    (hne : fields ≠ [])
    (hsplit : ∀ v, v ≠ .none → fits conv T v →
      structRow fields.length v = .ok (split v) ∧ List.Forall₂ (fun t x => fits conv t x) ts (split v) ∧
      expectedRow conv T v = .struct (expectedFields conv ts (split v)) ∧
      nestedCountAll (fun _ => 0) 1 ts (split v) ≤ nestedListLength T v ∧
      nestedCountAll (scalarBytes conv) 0 ts (split v) ≤ nestedByteLength conv T v) :
    Encodes conv (.struct fields) T := by
  intro values hfit hbound hbytes
  have hlen : fields.length = ts.length := hft.length_eq
  have hsplit' := fun v hv hn => hsplit v hn ((hfit v hv).resolve_left hn)
  let row : Value → List Value := fun v =>
    if v = .none then List.replicate fields.length .none else split v
  have hrow : ∀ v ∈ values, v ≠ .none → row v = split v ∧ List.Forall₂ (fun t x => fits conv t x) ts (split v) :=
    fun v hv hn => ⟨if_neg hn, (hsplit' v hv hn).2.1⟩
  have hstruct : ∀ v ∈ values, structRow fields.length v = .ok (row v) ∧ (row v).length = fields.length := by
    intro v hv
    by_cases hn : v = .none
    · subst hn
      simp [row, structRow]
    · obtain ⟨hr, hts⟩ := hrow v hv hn
      refine ⟨hr ▸ (hsplit' v hv hn).1, ?_⟩
      rw [hr, hlen, hts.length_eq]
  let rows := values.map row
  let validity := values.map fun v => v != .none
  have hvalidity : ∀ d i (hi : i < values.length), validity.getD i d = (values[i] != .none) := by
    intro d i hi
    rw [List.getD_eq_getElem _ _ (by simpa [validity] using hi), List.getElem_map]
  have hcount : ∀ (scalar : Value → ℕ) (perItem : ℕ), scalar .none = 0 →
      (∀ v ∈ values, v ≠ .none →
        nestedCountAll scalar perItem ts (split v) ≤ nestedCount scalar perItem T v) →
      (rows.map (nestedCountAll scalar perItem ts)).sum ≤
        (values.map (nestedCount scalar perItem T)).sum := by
    intro scalar perItem hs hle
    rw [List.map_map]
    refine List.sum_le_sum fun v hv => ?_
    by_cases hn : v = .none
    · simp only [Function.comp_apply, row, if_pos hn, hlen, nestedCountAll_replicate_none hs,
        Nat.zero_le]
    · simp only [Function.comp_apply, row, if_neg hn]
      exact hle v hv hn
  obtain ⟨arrs, harrs, halen, hzip, hwf, hrows⟩ := arrayForColumns_eq hft rows validity
    (fun r hr => by
      obtain ⟨v, hv, rfl⟩ := List.mem_map.1 hr
      by_cases hn : v = .none
      · simp only [row, if_pos hn, hlen]
        exact forall₂_replicate_none conv ts
      · rw [(hrow v hv hn).1]
        exact (hrow v hv hn).2.imp fun _ _ h => .inr h)
    (lt_of_le_of_lt (hcount _ 1 rfl fun v hv hn => (hsplit' v hv hn).2.2.2.1) hbound)
    (lt_of_le_of_lt (hcount _ 0 rfl fun v hv hn => (hsplit' v hv hn).2.2.2.2) hbytes)
    (by simp [rows, validity]) fun i hi hv => by
      have hi' : i < values.length := by simpa [rows] using hi
      rw [hvalidity true i hi', bne_iff_ne, ne_eq] at hv
      simp only [rows, List.getElem_map]
      exact (hrow _ (List.getElem_mem hi') hv).1 ▸ (hrow _ (List.getElem_mem hi') hv).2
  have hfold := foldlM_structRow fields.length row values (List.replicate fields.length [])
    (List.length_replicate _ _) hstruct
  have hcols := zipWith_replicate_nil_append (columnsOf fields.length rows)
  rw [length_columnsOf] at hcols
  rw [hcols] at hfold
  have hslen : (ArrowArray.struct fields arrs validity).len = values.length := by
    cases arrs with
    | nil => exact absurd (List.length_eq_zero.1 halen.symm) hne
    | cons a arrs =>
      cases fields with
      | nil => contradiction
      | cons f fields => exact (hzip (f, a) (List.mem_cons_self _ _)).2.1.trans (List.length_map _ _)
  have hvlen : validity.length = (ArrowArray.struct fields arrs validity).len := by
    rw [hslen, List.length_map]
  have heq : arrayForType conv (.struct fields) values = .ok (.struct fields arrs validity) := by
    rw [arrayForType, arrayOfStructs, hfold, ok_bind, harrs, ok_bind, structArrayNew,
      if_pos ⟨halen.symm, hvlen, fun p hp => ⟨(hzip p hp).1,
        (hzip p hp).2.1.trans ((List.length_map _ _).trans hslen.symm), (hzip p hp).2.2⟩⟩]
    rfl
  refine ⟨_, heq, hslen, rfl, ⟨halen.symm, hvlen, hwf⟩, fun i hi => ?_⟩
  rw [ArrowArray.isNull, ArrowArray.row, hvalidity _ i hi, hvalidity _ i hi,
    hrows i (by simpa [rows] using hi)]
  by_cases hn : values[i] = .none
  · simp [hn]
  · rw [bne_iff_ne.2 hn, beq_eq_false_iff_ne.2 hn, if_pos rfl]
    simp only [rows, List.getElem_map, row, if_neg hn]
    exact ⟨rfl, (hsplit' _ (List.getElem_mem hi) hn).2.2.1.symm⟩

theorem fitsAll_iff (conv : Conversions) : ∀ (ts : List EngineType) (vs : List Value),
    fitsAll conv ts vs = true ↔ List.Forall₂ (fun t v => fits conv t v) ts vs
  | [], [] => iff_of_true rfl .nil
  | t :: ts, v :: vs => by
    rw [show fitsAll conv (t :: ts) (v :: vs) = (fits conv t v && fitsAll conv ts vs) from rfl,
      Bool.and_eq_true, fitsAll_iff conv ts vs, List.forall₂_cons]
  | [], _ :: _ | _ :: _, [] => iff_of_false Bool.false_ne_true (by simp)

/-- A tuple type with a member is encoded as a struct array of its members' fields. -/
theorem encodes_tuple {conv : Conversions} {fields : List ArrowField} {ts : List EngineType}
    (hft : List.Forall₂ (fun f t => Encodes conv f.dataType t ∧ f.nullable = t.isOptional)
      fields ts)
    (hne : ts ≠ []) : Encodes conv (.struct fields) (.tuple ts) :=
  encodes_struct listItems hft (by rintro rfl; exact hne (List.forall₂_nil_left_iff.1 hft))
    fun v _ hv => by
      obtain ⟨vs, rfl, hvs⟩ : ∃ vs, v = .tuple vs ∧ fitsAll conv ts vs := by
        cases v <;> first | exact ⟨_, rfl, hv⟩ | cases hv
      exact ⟨rfl, (fitsAll_iff conv ts vs).1 hvs, rfl, le_rfl, le_rfl⟩

/-- Every axis length of an n-dimensional array fits `i64`: a non-zero one divides the
product of the non-zero lengths. -/
theorem NdArray.lt_of_mem_shape {α : Type} (a : NdArray α) {d : ℕ} (hd : d ∈ a.shape) :
    d < 2 ^ 63 := by
  rcases Nat.eq_zero_or_pos d with rfl | hpos
  · exact Nat.two_pow_pos 63
  · have hmem : d ∈ a.shape.filter (· ≠ 0) := List.mem_filter.2 ⟨hd, by simpa using hpos.ne'⟩
    have hprod : 0 < (a.shape.filter (· ≠ 0)).prod :=
      List.prod_pos (R := ℕ) fun x hx => Nat.pos_of_ne_zero (by simpa using (List.mem_filter.1 hx).2)
    exact lt_of_le_of_lt (Nat.le_of_dvd hprod (List.dvd_prod hmem)) a.size_lt

theorem convertShapeToPathwayTuple_eq {α : Type} (a : NdArray α) :
    convertShapeToPathwayTuple a.shape = .ok (.tuple (a.shape.map fun (d : ℕ) => .int d)) := by
  unfold convertShapeToPathwayTuple
  rw [mapM_eq_ok (fun (d : ℕ) => Value.int d) a.shape fun d hd => ?_]
  · rfl
  · exact if_pos (NdArray.lt_of_mem_shape a hd)

/-- A list of values that each fit `w` fits a list of optional `w`. -/
theorem fits_list_optional_map {α : Type} (conv : Conversions) (w : EngineType) (f : α → Value)
    (hf : ∀ a, fits conv w (f a) = true) (l : List α) :
    fits conv (.list (.optional w)) (.tuple (l.map f)) = true := by
  rw [fits_list_tuple, List.all_eq_true]
  intro x hx
  obtain ⟨a, -, rfl⟩ := List.mem_map.1 hx
  rw [fits_optional, hf a, Bool.or_true]

/-- The two members the writer makes of an n-dimensional array: its shape and its
elements. -/
def ndarrayMembers : Value → List Value
  | .intArray a => [.tuple (a.shape.map fun (d : ℕ) => .int d), .tuple (a.elems.map .int)]
  | .floatArray a => [.tuple (a.shape.map fun (d : ℕ) => .int d), .tuple (a.elems.map .float)]
  | _ => []

/-- An n-dimensional array of integers or floats is encoded as a struct of two lists: its
shape and its elements. -/
theorem encodes_array (conv : Conversions) (dim : Option ℕ) {w : EngineType} {E : ArrowDataType}
    (hw : (w = .int ∧ E = .int64) ∨ (w = .float ∧ E = .float64)) :
    Encodes conv (.struct [.mk .shape (.list (.mk .singleElement .int64 true)) false,
      .mk .elements (.list (.mk .singleElement E true)) false]) (.array dim w) := by
  have hshape := encodes_list (encodes_optional (encodes_int64 conv (.inl rfl)))
  rcases hw with ⟨rfl, rfl⟩ | ⟨rfl, rfl⟩
  · refine encodes_struct ndarrayMembers (.cons ⟨hshape, rfl⟩ (.cons ⟨hshape, rfl⟩ .nil))
      (List.cons_ne_nil _ _) fun v _ hv => ?_
    obtain ⟨a, rfl⟩ : ∃ a, v = .intArray a := by cases v <;> first | exact ⟨_, rfl⟩ | cases hv
    refine ⟨by simp [structRow, convertShapeToPathwayTuple_eq, convertContentsToPathwayTuple,
      ndarrayMembers], .cons (fits_list_optional_map conv .int (fun (d : ℕ) => .int d)
        (fun _ => rfl) a.shape) (.cons (fits_list_optional_map conv .int .int (fun _ => rfl) a.elems)
        .nil), ?_, by
        simp [ndarrayMembers, nestedListLength, nestedCount, nestedCountAll, Function.comp_def],
        by simp [ndarrayMembers, nestedByteLength, nestedCount, nestedCountAll, scalarBytes,
          Function.comp_def]⟩
    simp only [ndarrayMembers, expectedFields_cons, expectedRow_list_tuple, expectedRow_optional,
      List.map_map]
    rfl
  · refine encodes_struct ndarrayMembers (.cons ⟨hshape, rfl⟩
      (.cons ⟨encodes_list (encodes_optional (encodes_float64 conv)), rfl⟩ .nil))
      (List.cons_ne_nil _ _) fun v _ hv => ?_
    obtain ⟨a, rfl⟩ : ∃ a, v = .floatArray a := by cases v <;> first | exact ⟨_, rfl⟩ | cases hv
    refine ⟨by simp [structRow, convertShapeToPathwayTuple_eq, convertContentsToPathwayTuple,
      ndarrayMembers], .cons (fits_list_optional_map conv .int (fun (d : ℕ) => .int d)
        (fun _ => rfl) a.shape) (.cons (fits_list_optional_map conv .float .float (fun _ => rfl)
        a.elems) .nil), ?_, by
        simp [ndarrayMembers, nestedListLength, nestedCount, nestedCountAll, Function.comp_def],
        by simp [ndarrayMembers, nestedByteLength, nestedCount, nestedCountAll, scalarBytes,
          Function.comp_def]⟩
    simp only [ndarrayMembers, expectedFields_cons, expectedRow_list_tuple, expectedRow_optional,
      List.map_map]
    rfl

mutual
/-- Every supported type whose tuples have a member is encoded by the data type
`arrow_data_type` gives it. -/
theorem encodes (conv : Conversions) (settings : LakeWriterSettings) :
    (T : EngineType) → T.supported false = true →
      ∀ A, arrowDataType settings T = .ok A → Encodes conv A T
  | .bool, _, _, h => by cases h; exact encodes_boolean conv
  | .int, _, _, h => by cases h; exact encodes_int64 conv (.inl rfl)
  | .duration, _, _, h => by cases h; exact encodes_int64 conv (.inr rfl)
  | .float, _, _, h => by cases h; exact encodes_float64 conv
  | .string, _, _, h => by cases h; exact encodes_utf8 conv (.inl rfl)
  | .json, _, _, h => by cases h; exact encodes_utf8 conv (.inr (.inl rfl))
  | .pointer, _, _, h => by cases h; exact encodes_utf8 conv (.inr (.inr rfl))
  | .bytes, _, _, h => by cases h; exact encodes_binary conv _ (.inl rfl)
  | .pyObjectWrapper, _, _, h => by cases h; exact encodes_binary conv _ (.inr rfl)
  | .dateTimeNaive, _, _, h => by cases h; exact encodes_timestampNaive conv
  | .dateTimeUtc, _, _, h => by cases h; exact encodes_timestampUtc conv _
  | .optional t, hs, A, h => encodes_optional (encodes conv settings t hs A h)
  | .list t, hs, _, h => by
    obtain ⟨A, hA, h⟩ := bind_eq_ok.1 h
    cases h
    exact encodes_list (encodes conv settings t hs A hA)
  | .array dim w, hs, _, h => by
    cases w <;> simp only [EngineType.supported] at hs <;> cases h
    · exact encodes_array conv dim (.inl ⟨rfl, rfl⟩)
    · exact encodes_array conv dim (.inr ⟨rfl, rfl⟩)
  | .tuple ts, hs, _, h => by
    simp only [EngineType.supported, Bool.false_or, Bool.and_eq_true, Bool.not_eq_true',
      List.isEmpty_eq_false] at hs
    obtain ⟨fs, hfs, rfl⟩ := map_eq_ok.1 h
    exact encodes_tuple (encodesFields conv settings 0 ts hs.2 fs hfs) hs.1
  | .any, hs, _, _ | .future _, hs, _, _ => by simp [EngineType.supported] at hs
/-- The fields `arrow_data_type` makes for a tuple's members encode them. -/
theorem encodesFields (conv : Conversions) (settings : LakeWriterSettings) :
    (index : ℕ) → (ts : List EngineType) → EngineType.supportedAll false ts = true →
      ∀ fs, tupleFields settings index ts = .ok fs →
      List.Forall₂ (fun f t => Encodes conv f.dataType t ∧ f.nullable = t.isOptional) fs ts
  | _, [], _, _, h => by cases h; exact .nil
  | index, t :: ts, hs, _, h => by
    simp only [EngineType.supportedAll, Bool.and_eq_true] at hs
    obtain ⟨A, hA, h⟩ := bind_eq_ok.1 h
    obtain ⟨rest, hrest, h⟩ := bind_eq_ok.1 h
    cases h
    exact .cons ⟨encodes conv settings t hs.1 A hA, rfl⟩
      (encodesFields conv settings (index + 1) ts hs.2 rest hrest)
end

/-- The schema and the encoder agree: every supported type has a data type, and on values
that fit a supported type whose tuples have a member, with few enough list elements and
bytes for 32-bit offsets, the encoder builds without error or panic a well-formed array of
that type with a row per value. -/
theorem arrow_schema_encoder_agree :
    (∀ (settings : LakeWriterSettings) (T : EngineType), T.supported true = true →
      ∃ A, arrowDataType settings T = .ok A) ∧
    ∀ (conv : Conversions) (settings : LakeWriterSettings) (T : EngineType),
      T.supported false = true → ∀ values : List Value,
      (∀ v ∈ values, v = .none ∨ fits conv T v) → (values.map (nestedListLength T)).sum < 2 ^ 31 →
      (values.map (nestedByteLength conv T)).sum < 2 ^ 31 →
      ∃ A arr, arrowDataType settings T = .ok A ∧ arrayForType conv A values = .ok arr ∧
        arr.len = values.length ∧ arr.dataType = A ∧ arr.WellFormed :=
  ⟨fun settings T h => arrowDataType_ok settings true T h,
    fun conv settings T h values hfit hbound hbytes => by
      obtain ⟨A, hA⟩ := arrowDataType_ok settings false T h
      obtain ⟨arr, harr, hlen, hdt, hwf, -⟩ :=
        encodes conv settings T h A hA values hfit hbound hbytes
      exact ⟨A, arr, hA, harr, hlen, hdt, hwf⟩⟩

/-- Conversions that write every pointer and JSON value as empty text and serialise no
Python object. -/
def blankConversions : Conversions := ⟨fun _ => "", fun _ => "", fun _ => none, id, id, id⟩

theorem arrow_schema_encoder_agree_listOfOptional :
    EngineType.supported false (.list (.optional .int)) = true ∧
    (∀ v ∈ [Value.tuple [.int 1, .none], .none, .tuple []], v = .none ∨
      fits blankConversions (.list (.optional .int)) v) ∧
    ([Value.tuple [.int 1, .none], .none, .tuple []].map
      (nestedListLength (.list (.optional .int)))).sum < 2 ^ 31 ∧
    ([Value.tuple [.int 1, .none], .none, .tuple []].map
      (nestedByteLength blankConversions (.list (.optional .int)))).sum < 2 ^ 31 ∧
    ∃ A arr, arrowDataType ⟨false, "UTC"⟩ (.list (.optional .int)) = .ok A ∧
      arrayForType blankConversions A [.tuple [.int 1, .none], .none, .tuple []] = .ok arr ∧
      arr.len = 3 ∧ arr.dataType = A ∧ arr.WellFormed :=
  have hfit : ∀ v ∈ [Value.tuple [.int 1, .none], .none, .tuple []], v = .none ∨
      fits blankConversions (.list (.optional .int)) v := by
    decide
  have hbound : ([Value.tuple [.int 1, .none], .none, .tuple []].map
      (nestedListLength (.list (.optional .int)))).sum < 2 ^ 31 := by decide
  have hbytes : ([Value.tuple [.int 1, .none], .none, .tuple []].map
      (nestedByteLength blankConversions (.list (.optional .int)))).sum < 2 ^ 31 := by decide
  ⟨rfl, hfit, hbound, hbytes, arrow_schema_encoder_agree.2 _ ⟨false, "UTC"⟩ (.list (.optional .int))
    rfl _ hfit hbound hbytes⟩

/-- A binary column of `2 ^ 31` bytes: more than `i32` offsets reach. -/
def longBytes : Value := .bytes (List.replicate (2 ^ 31) 0)

/-- A binary array is not built for bytes that outrun `i32` offsets: the builder panics. -/
theorem arrayForType_binary_panics (conv : Conversions) {b : List UInt8} (hb : 2 ^ 31 ≤ b.length) :
    arrayForType conv .binary [.bytes b] = .error (.panic .byteOffsetOverflow) := by
  have hfit : byteOffsetsFit false List.length [some b] = false := by
    simpa [byteOffsetsFit] using hb
  rw [arrayForType, arrayOfSimpleType, List.mapM_cons, if_neg fun h => Value.noConfusion h]
  simp only [binarySlot, List.mapM_nil, pure_eq_ok, map_ok, ok_bind, binaryArrayFrom, hfit]
  rfl

/-- Two columns the encoder does not build. A tuple type without members has a data type,
but a column of it with a row makes `StructArray::new` panic: a struct array without columns
has length zero, not the length of its validity bits. And a column of bytes whose total
outruns `i32` offsets makes the binary builder panic. -/
theorem arrayForType_emptyTuple_or_long_bytes_panics :
    (EngineType.supported true (.tuple []) = true ∧
      fits blankConversions (.tuple []) (.tuple []) = true ∧
      arrowDataType ⟨false, "UTC"⟩ (.tuple []) = .ok (.struct []) ∧
      arrayForType blankConversions (.struct []) [.tuple []] = .error (.panic .structArray)) ∧
    (EngineType.supported true .bytes = true ∧ fits blankConversions .bytes longBytes = true ∧
      arrowDataType ⟨false, "UTC"⟩ .bytes = .ok .binary ∧
      arrayForType blankConversions .binary [longBytes] = .error (.panic .byteOffsetOverflow)) :=
  ⟨⟨rfl, rfl, rfl, rfl⟩, rfl, rfl, rfl,
    arrayForType_binary_panics _ (List.length_replicate _ _).symm.le⟩

/-- The encoder is faithful: read back by Arrow's layout, the array it builds for values
that fit a supported type whose tuples have a member, with few enough list elements and bytes
for 32-bit offsets, has row `i` null exactly at a `None` and otherwise reading as `values[i]`
under the fixed mapping. -/
theorem arrow_encoder_reads_back (conv : Conversions) (settings : LakeWriterSettings)
    (T : EngineType) (h : T.supported false = true) (values : List Value)
    (hfit : ∀ v ∈ values, v = .none ∨ fits conv T v)
    (hbound : (values.map (nestedListLength T)).sum < 2 ^ 31)
    (hbytes : (values.map (nestedByteLength conv T)).sum < 2 ^ 31) :
    ∃ A arr, arrowDataType settings T = .ok A ∧ arrayForType conv A values = .ok arr ∧
      ∀ i (hi : i < values.length), arr.isNull i = (values[i] == .none) ∧
        arr.row i = expectedRow conv T values[i] := by
  obtain ⟨A, hA⟩ := arrowDataType_ok settings false T h
  obtain ⟨arr, harr, -, -, -, hrow⟩ := encodes conv settings T h A hA values hfit hbound hbytes
  exact ⟨A, arr, hA, harr, hrow⟩

theorem arrow_encoder_reads_back_tuple :
    EngineType.supported false (.tuple [.int, .optional .string]) = true ∧
    (∀ v ∈ [Value.tuple [.int 7, .string "ab"], .none], v = .none ∨
      fits blankConversions (.tuple [.int, .optional .string]) v) ∧
    ([Value.tuple [.int 7, .string "ab"], .none].map
      (nestedListLength (.tuple [.int, .optional .string]))).sum < 2 ^ 31 ∧
    ([Value.tuple [.int 7, .string "ab"], .none].map
      (nestedByteLength blankConversions (.tuple [.int, .optional .string]))).sum < 2 ^ 31 ∧
    ∃ A arr, arrowDataType ⟨false, "UTC"⟩ (.tuple [.int, .optional .string]) = .ok A ∧
      arrayForType blankConversions A [.tuple [.int 7, .string "ab"], .none] = .ok arr ∧
      ∀ i (hi : i < 2), arr.isNull i = ([Value.tuple [.int 7, .string "ab"], .none][i] == .none) ∧
        arr.row i = expectedRow blankConversions (.tuple [.int, .optional .string])
          [Value.tuple [.int 7, .string "ab"], .none][i] :=
  have hfit : ∀ v ∈ [Value.tuple [.int 7, .string "ab"], .none], v = .none ∨
      fits blankConversions (.tuple [.int, .optional .string]) v := by decide
  have hbound : ([Value.tuple [.int 7, .string "ab"], .none].map
      (nestedListLength (.tuple [.int, .optional .string]))).sum < 2 ^ 31 := by decide
  have hbytes : ([Value.tuple [.int 7, .string "ab"], .none].map
      (nestedByteLength blankConversions (.tuple [.int, .optional .string]))).sum < 2 ^ 31 := by
    decide
  ⟨rfl, hfit, hbound, hbytes, arrow_encoder_reads_back _ ⟨false, "UTC"⟩
    (.tuple [.int, .optional .string]) rfl _ hfit hbound hbytes⟩

/-- Two columns with no array to read back: a list of tuples without members, whose
struct array makes `StructArray::new` panic, and bytes that outrun `i32` offsets. -/
theorem arrayForType_listOfEmptyTuples_or_long_bytes_panics :
    (fits blankConversions (.list (.tuple [])) (.tuple [.tuple []]) = true ∧
      arrowDataType ⟨false, "UTC"⟩ (.list (.tuple [])) =
        .ok (.list (.mk .singleElement (.struct []) false)) ∧
      arrayForType blankConversions (.list (.mk .singleElement (.struct []) false))
        [.tuple [.tuple []]] = .error (.panic .structArray)) ∧
    (fits blankConversions .bytes longBytes = true ∧ arrowDataType ⟨false, "UTC"⟩ .bytes = .ok .binary ∧
      arrayForType blankConversions .binary [longBytes] = .error (.panic .byteOffsetOverflow)) :=
  ⟨⟨rfl, rfl, rfl⟩, rfl, rfl, arrayForType_binary_panics _ (List.length_replicate _ _).symm.le⟩

end Arrow
end Pathway
