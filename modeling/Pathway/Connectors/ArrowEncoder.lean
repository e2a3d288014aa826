import Pathway.Connectors.ArrowArray

/-! The Arrow encoder of the data-lake writers: `array_for_type` and the functions it calls
(`connectors/data_lake/arrow.rs`). The conversions it takes from elsewhere in the engine
(text of pointers and JSON, `bincode`, microsecond readings of times) are parameters. -/
namespace Pathway
namespace Arrow

/-- The conversions the encoder takes from elsewhere in the engine: the text of a pointer and
of a JSON value (`to_string`), `bincode::serialize` (`none` when it fails), and the
microsecond readings of a duration and of the two kinds of date-time. -/
structure Conversions where
  pointerToString : Key → String
  jsonToString : Json → String
  bincode : Value → Option (List UInt8)
  durationMicros : ℤ → ℤ
  naiveMicros : ℤ → ℤ
  utcMicros : ℤ → ℤ

/-- `array_of_simple_type`: a slot per value, empty for `Value::None`. -/
def arrayOfSimpleType {α : Type} (values : List Value)
    (toSimpleType : Value → Except WriteError α) : Except WriteError (List (Option α)) :=
  values.mapM fun value => if value = .none then pure none else some <$> toSimpleType value

def booleanSlot (v : Value) : Except WriteError Bool :=
  match v with
  | .bool b => pure b
  | _ => throw (.typeMismatchWithSchema v .boolean)

def int64Slot (conv : Conversions) (v : Value) : Except WriteError ℤ :=
  match v with
  | .int i => pure i
  | .duration d => pure (conv.durationMicros d)
  | _ => throw (.typeMismatchWithSchema v .int64)

def float64Slot (v : Value) : Except WriteError F64 :=
  match v with
  | .float f => pure f
  | _ => throw (.typeMismatchWithSchema v .float64)

def utf8Slot (conv : Conversions) (v : Value) : Except WriteError String :=
  match v with
  | .string s => pure s
  | .pointer p => pure (conv.pointerToString p)
  | .json j => pure (conv.jsonToString j)
  | _ => throw (.typeMismatchWithSchema v .utf8)

def binarySlot (conv : Conversions) (type : ArrowDataType) (v : Value) :
    Except WriteError (List UInt8) :=
  match v with
  | .bytes b => pure b
  | .pyObjectWrapper _ | .pointer _ =>
    match conv.bincode v with
    | some b => pure b
    | none => throw .bincode
  | _ => throw (.typeMismatchWithSchema v type)

def timestampNaiveSlot (conv : Conversions) (v : Value) : Except WriteError ℤ :=
  match v with
  | .dateTimeNaive dt => pure (conv.naiveMicros dt)
  | _ => throw (.typeMismatchWithSchema v (.timestamp none))

def timestampUtcSlot (conv : Conversions) (tz : String) (v : Value) : Except WriteError ℤ :=
  match v with
  | .dateTimeUtc dt => pure (conv.utcMicros dt)
  | _ => throw (.typeMismatchWithSchema v (.timestamp (some tz)))

/-- The members of a list value (`let Value::Tuple(list) = value else ..`). -/
def listItems (v : Value) : List Value := v.asTuple.getD []

/-- The state of `array_of_lists`'s loop: the elements so far, the offsets pushed and the
validity bits. -/
structure ListsLoop where
  flatValues : List Value
  offsets : List ℕ
  defined : List Bool

/-- One turn of `array_of_lists`'s loop. -/
def listsStep (s : ListsLoop) (value : Value) : ListsLoop :=
  match value.asTuple with
  | some list => ⟨s.flatValues ++ list, s.offsets ++ [s.flatValues.length], s.defined ++ [true]⟩
  | none => ⟨s.flatValues, s.offsets ++ [s.flatValues.length], s.defined ++ [false]⟩

/-- `try_into().unwrap()` of an offset into `i64` or `i32`. -/
def offsetOf (use64bitSizeType : Bool) (v : ℕ) : Except WriteError ℕ :=
  if v < (if use64bitSizeType then 2 ^ 63 else 2 ^ 31) then pure v
  else throw (.panic .offsetOverflow)

/-- `array_of_lists`, with `array_for_type` of the item type as `arrayForItems`. -/
def arrayOfLists (arrayForItems : List Value → Except WriteError ArrowArray)
    (values : List Value) (nestedType : ArrowField) (use64bitSizeType : Bool) :
    Except WriteError ArrowArray := do
  let loop := values.foldl listsStep ⟨[], [], []⟩
  let flatValues ← arrayForItems loop.flatValues
  let offsets ← (loop.offsets ++ [loop.flatValues.length]).mapM (offsetOf use64bitSizeType)
  let offsetBuffer ← offsetBufferNew offsets
  listArrayNew use64bitSizeType nestedType offsetBuffer flatValues loop.defined

/-- `convert_shape_to_pathway_tuple`: the axis lengths as `Int`s (`try_into().unwrap()`). -/
def convertShapeToPathwayTuple (shape : List ℕ) : Except WriteError Value :=
  Value.tuple <$> shape.mapM fun (v : ℕ) =>
    if v < 2 ^ 63 then pure (.int v) else throw (.panic .shapeOverflow)

/-- `convert_contents_to_pathway_tuple`: the elements in logical order. -/
def convertContentsToPathwayTuple {α : Type} (toValue : α → Value) (contents : NdArray α) :
    Value :=
  .tuple (contents.elems.map toValue)

/-- What one value puts into the `width` columns of `array_of_structs`, column by column. -/
def structRow (width : ℕ) : Value → Except WriteError (List Value)
  | .none => pure (List.replicate width .none)
  | .intArray a => do
    let shape ← convertShapeToPathwayTuple a.shape
    pure [shape, convertContentsToPathwayTuple .int a]
  | .floatArray a => do
    let shape ← convertShapeToPathwayTuple a.shape
    pure [shape, convertContentsToPathwayTuple .float a]
  | .tuple tupleElements => pure tupleElements
  | _ => throw (.panic .notSerializableAsTuple)

/-- `struct_columns[index].push(field)` for each member of a row; a member beyond the
columns is out of bounds. -/
def pushRow : List (List Value) → List Value → Except WriteError (List (List Value))
  | columns, [] => pure columns
  | [], _ :: _ => throw (.panic .columnIndex)
  | column :: columns, field :: fields => do
    let rest ← pushRow columns fields
    pure ((column ++ [field]) :: rest)

/-- `array_of_structs`, with `array_for_type` of each column's field as
`arrayForColumns`. -/
def arrayOfStructs (arrayForColumns : List (List Value) → Except WriteError (List ArrowArray))
    (values : List Value) (nestedTypes : List ArrowField) : Except WriteError ArrowArray := do
  let structColumns ← values.foldlM (fun structColumns value => do
      pushRow structColumns (← structRow nestedTypes.length value))
    (List.replicate nestedTypes.length [])
  let arrowArrays ← arrayForColumns structColumns
  structArrayNew nestedTypes arrowArrays (values.map fun value => value != .none)

mutual
/-- `array_for_type`. -/
def arrayForType (conv : Conversions) : ArrowDataType → List Value → Except WriteError ArrowArray
  | .boolean, values => .boolean <$> arrayOfSimpleType values booleanSlot
  | .int64, values => .int64 <$> arrayOfSimpleType values (int64Slot conv)
  | .float64, values => .float64 <$> arrayOfSimpleType values float64Slot
  | .utf8, values => do stringArrayFrom (← arrayOfSimpleType values (utf8Slot conv))
  | .binary, values => do binaryArrayFrom false (← arrayOfSimpleType values (binarySlot conv .binary))
  | .largeBinary, values => do
    binaryArrayFrom true (← arrayOfSimpleType values (binarySlot conv .largeBinary))
  | .timestamp none, values =>
    .timestamp none <$> arrayOfSimpleType values (timestampNaiveSlot conv)
  | .timestamp (some tz), values =>
    .timestamp (some tz) <$> arrayOfSimpleType values (timestampUtcSlot conv tz)
  | .list (.mk name itemType nullable), values =>
    arrayOfLists (fun items => arrayForType conv itemType items) values
      (.mk name itemType nullable) false
  | .largeList (.mk name itemType nullable), values =>
    arrayOfLists (fun items => arrayForType conv itemType items) values
      (.mk name itemType nullable) true
  | .struct nestedStruct, values =>
    arrayOfStructs (fun columns => arrayForColumns conv nestedStruct columns) values nestedStruct
/-- `array_for_type` of each column with its field's type (`zip` stops at the shorter). -/
def arrayForColumns (conv : Conversions) :
    List ArrowField → List (List Value) → Except WriteError (List ArrowArray)
  | .mk _ dataType _ :: fields, column :: columns => do
    let arrowArray ← arrayForType conv dataType column
    let rest ← arrayForColumns conv fields columns
    pure (arrowArray :: rest)
  | _, _ => pure []
end

theorem arrayForColumns_cons (conv : Conversions) (field : ArrowField) (fields : List ArrowField)
    (column : List Value) (columns : List (List Value)) :
    arrayForColumns conv (field :: fields) (column :: columns) = (do
      let arrowArray ← arrayForType conv field.dataType column
      let rest ← arrayForColumns conv fields columns
      pure (arrowArray :: rest)) := by
  cases field
  rfl

end Arrow
end Pathway
