import Pathway.Connectors.ArrowSchema

/-! The arrow-rs arrays the writer builds, by their layout, and the constructors that check
their arguments: `ListArray::new` and `StructArray::new` (both `try_new(..).unwrap()`), with
`OffsetBuffer::new`, and `From<Vec<Option<_>>>` of a string or binary array, whose builder
writes an offset per slot, the bytes so far, and panics when it does not fit the offset type.
A struct array takes its length from its first column, as arrow-rs does, so one without
columns has length zero. Fixed-width primitive arrays are built from their slots with no
check. The model states arrow-rs's checks; it does not model its buffers. -/
namespace Pathway
namespace Arrow

/-- An Arrow array: a primitive one by its slots (`none` is a null); a list array by its
item field, offsets, child array and validity bits; a struct array by its fields, columns and
validity bits. `large` marks the variants with 64-bit offsets. -/
inductive ArrowArray where
  | boolean (slots : List (Option Bool))
  | int64 (slots : List (Option ℤ))
  | float64 (slots : List (Option F64))
  | utf8 (slots : List (Option String))
  | binary (large : Bool) (slots : List (Option (List UInt8)))
  | timestamp (tz : Option String) (slots : List (Option ℤ))
  | list (large : Bool) (field : ArrowField) (offsets : List ℕ) (values : ArrowArray)
      (validity : List Bool)
  | struct (fields : List ArrowField) (columns : List ArrowArray) (validity : List Bool)

/-- Whether slot `i` of a primitive array is present and empty. -/
def slotIsNull {α : Type} (slots : List (Option α)) (i : ℕ) : Bool :=
  match slots[i]? with
  | some none => true
  | _ => false

namespace ArrowArray

/-- `Array::len`. -/
def len : ArrowArray → ℕ
  | boolean s => s.length
  | int64 s => s.length
  | float64 s => s.length
  | utf8 s => s.length
  | binary _ s => s.length
  | timestamp _ s => s.length
  | list _ _ offsets _ _ => offsets.length - 1
  | struct _ columns _ => match columns with
    | [] => 0
    | c :: _ => c.len

/-- `Array::data_type`. -/
def dataType : ArrowArray → ArrowDataType
  | boolean _ => .boolean
  | int64 _ => .int64
  | float64 _ => .float64
  | utf8 _ => .utf8
  | binary large _ => if large then .largeBinary else .binary
  | timestamp tz _ => .timestamp tz
  | list large field _ _ _ => if large then .largeList field else .list field
  | struct fields _ _ => .struct fields

/-- `Array::is_null` on the logical nulls: row `i` is a null. -/
def isNull : ArrowArray → ℕ → Bool
  | boolean s, i => slotIsNull s i
  | int64 s, i => slotIsNull s i
  | float64 s, i => slotIsNull s i
  | utf8 s, i => slotIsNull s i
  | binary _ s, i => slotIsNull s i
  | timestamp _ s, i => slotIsNull s i
  | list _ _ _ _ validity, i => !validity.getD i true
  | struct _ _ validity, i => !validity.getD i true

end ArrowArray

/-- Whether the slots' bytes fit the offsets of a string or binary array: arrow-rs's
`GenericByteBuilder` pushes after each slot the bytes so far as an `i32`, or for a large
array an `i64`, offset. -/
def byteOffsetsFit {α : Type} (large : Bool) (size : α → ℕ) (slots : List (Option α)) : Bool :=
  (slots.map fun slot => (slot.map size).getD 0).sum < if large then 2 ^ 63 else 2 ^ 31

/-- `StringArray::from`: the builder panics ("byte array offset overflow") on more bytes
than `i32` offsets reach. -/
def stringArrayFrom (slots : List (Option String)) : Except WriteError ArrowArray :=
  if byteOffsetsFit false String.utf8ByteSize slots then pure (.utf8 slots)
  else throw (.panic .byteOffsetOverflow)

/-- `BinaryArray::from` and `LargeBinaryArray::from`: the builder panics ("byte array offset
overflow") on more bytes than the offsets reach. -/
def binaryArrayFrom (large : Bool) (slots : List (Option (List UInt8))) :
    Except WriteError ArrowArray :=
  if byteOffsetsFit large List.length slots then pure (.binary large slots)
  else throw (.panic .byteOffsetOverflow)

/-- `OffsetBuffer::new`: it asserts the offsets are non-empty and non-decreasing (they are
unsigned here, so they start at zero or above). -/
def offsetBufferNew (offsets : List ℕ) : Except WriteError (List ℕ) :=
  if offsets ≠ [] ∧ offsets.Pairwise (· ≤ ·) then pure offsets else throw (.panic .offsetBuffer)

/-- `ListArray::new` and `LargeListArray::new`: the last offset within the child, a validity
bit per list, no null in the child of a non-nullable field, and the child of the field's
type. -/
def listArrayNew (large : Bool) (field : ArrowField) (offsets : List ℕ) (values : ArrowArray)
    (validity : List Bool) : Except WriteError ArrowArray :=
  if offsets.getLast?.getD 0 ≤ values.len ∧ validity.length = offsets.length - 1 ∧
      (field.nullable = false → ∀ i < values.len, values.isNull i = false) ∧
      field.dataType = values.dataType then
    pure (.list large field offsets values validity)
  else throw (.panic .listArray)

/-- `StructArray::new`: a column per field, a validity bit per row of the first column, and
every column of its field's type, of that length, and, for a non-nullable field, null only
where the struct is. -/
def structArrayNew (fields : List ArrowField) (columns : List ArrowArray)
    (validity : List Bool) : Except WriteError ArrowArray :=
  if fields.length = columns.length ∧
      validity.length = (ArrowArray.struct fields columns validity).len ∧
      ∀ p ∈ fields.zip columns, p.2.dataType = p.1.dataType ∧
        p.2.len = (ArrowArray.struct fields columns validity).len ∧
        (p.1.nullable = false → ∀ i < p.2.len, p.2.isNull i → validity.getD i true = false) then
    pure (.struct fields columns validity)
  else throw (.panic .structArray)

mutual
/-- The layout invariants of a built array: a list array's offsets, one more than its lists,
start at zero, do not decrease and end at its child's length, its validity has a bit per
list, and a non-nullable item field has no null; a struct array has a validity bit per row
and a column per field, each of the struct's length and, for a non-nullable field, null only
where the struct is. -/
def ArrowArray.WellFormed : ArrowArray → Prop
  | .list _ field offsets values validity =>
    offsets.length = validity.length + 1 ∧ offsets.head? = some 0 ∧ offsets.Pairwise (· ≤ ·) ∧
      offsets.getLast? = some values.len ∧
      (field.nullable = false → ∀ i < values.len, values.isNull i = false) ∧ values.WellFormed
  | .struct fields columns validity =>
    fields.length = columns.length ∧
      validity.length = (ArrowArray.struct fields columns validity).len ∧
      ArrowArray.ColumnsWellFormed fields columns validity
  | .boolean _ | .int64 _ | .float64 _ | .utf8 _ | .binary _ _ | .timestamp _ _ => True
/-- The columns of a struct array with the given fields and validity are well formed. -/
def ArrowArray.ColumnsWellFormed : List ArrowField → List ArrowArray → List Bool → Prop
  | f :: fs, c :: cs, validity =>
    c.len = validity.length ∧
      (f.nullable = false → ∀ i < c.len, c.isNull i → validity.getD i true = false) ∧
      c.WellFormed ∧ ArrowArray.ColumnsWellFormed fs cs validity
  | _, _, _ => True
end

/-- A value read back from an Arrow array by its layout. -/
inductive ArrowValue where
  | null
  | bool (b : Bool)
  | int (i : ℤ)
  | float (f : F64)
  | utf8 (s : String)
  | binary (b : List UInt8)
  | list (items : List ArrowValue)
  | struct (fields : List ArrowValue)

/-- Row `i` of a primitive array: its `i`-th slot, null where it is absent. -/
def slotRow {α : Type} (read : α → ArrowValue) (slots : List (Option α)) (i : ℕ) : ArrowValue :=
  match slots[i]? with
  | some (some a) => read a
  | _ => .null

mutual
/-- Row `i` of an array by Arrow's layout: a primitive array's `i`-th slot, a list array's
child rows `offsets[i]` to `offsets[i+1]`, a struct array's `i`-th row of each column, and
null where the validity bit is unset. -/
def ArrowArray.row : ArrowArray → ℕ → ArrowValue
  | .boolean s, i => slotRow .bool s i
  | .int64 s, i => slotRow .int s i
  | .float64 s, i => slotRow .float s i
  | .utf8 s, i => slotRow .utf8 s i
  | .binary _ s, i => slotRow .binary s i
  | .timestamp _ s, i => slotRow .int s i
  | .list _ _ offsets values validity, i =>
    if validity.getD i false then
      .list ((List.range' (offsets.getD i 0) (offsets.getD (i + 1) 0 - offsets.getD i 0)).map
        fun j => values.row j)
    else .null
  | .struct _ columns validity, i =>
    if validity.getD i false then .struct (ArrowArray.columnRows columns i) else .null
/-- Row `i` of each column. -/
def ArrowArray.columnRows : List ArrowArray → ℕ → List ArrowValue
  | [], _ => []
  | c :: cs, i => c.row i :: ArrowArray.columnRows cs i
end

end Arrow
end Pathway
