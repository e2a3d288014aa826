import Pathway.Engine.Value

/-! The Arrow schema of the data-lake writers (`connectors/data_lake/arrow.rs`):
`arrow_data_type` maps an engine `Type` to an Arrow data type. The Arrow side (`DataType`,
`Field`) is arrow-rs's; only the variants the writer produces, and those `array_for_type`
reads, are modelled. The engine's `Type` is not among these sources: its variants are the
ones `arrow_data_type` matches on, exhaustively. `construct_schema` gives a field for each
column of the table, then the fields the maintenance mode adds; the writer's
`metadata_per_column`, the mode's `additional_output_fields` and `Type::can_be_none` are not
in these sources and are parameters. -/
namespace Pathway
namespace Arrow

/-- The engine's `Type`. -/
inductive EngineType where
  | any
  | bool
  | int
  | float
  | pointer
  | string
  | bytes
  | dateTimeNaive
  | dateTimeUtc
  | duration
  | array (dim : Option ℕ) (wrapped : EngineType)
  | json
  | tuple (wrapped : List EngineType)
  | list (wrapped : EngineType)
  | pyObjectWrapper
  | optional (wrapped : EngineType)
  | future (wrapped : EngineType)

/-- `Type::is_optional`: whether the type admits `None`. (`Any` never reaches a field:
`arrow_data_type` rejects it.) -/
def EngineType.isOptional : EngineType → Bool
  | .optional _ => true
  | _ => false

/-- The fields of `LakeWriterSettings` the schema reads. -/
structure LakeWriterSettings where
  use64bitSizeType : Bool
  utcTimezoneName : String

/-- The names the writer gives Arrow fields: the element of a list
(`NDARRAY_SINGLE_ELEMENT_FIELD_NAME`), the parts of an n-dimensional array
(`NDARRAY_SHAPE_FIELD_NAME`, `NDARRAY_ELEMENTS_FIELD_NAME`) and the `[i]`-th member of a
tuple. -/
inductive FieldName where
  | singleElement
  | shape
  | elements
  | index (i : ℕ)
  deriving DecidableEq

mutual
/-- `arrow::datatypes::DataType`, the variants `array_for_type` handles. -/
inductive ArrowDataType where
  | boolean
  | int64
  | float64
  | utf8
  | binary
  | largeBinary
  /-- `Timestamp(Microsecond, tz)`. -/
  | timestamp (tz : Option String)
  | list (field : ArrowField)
  | largeList (field : ArrowField)
  | struct (fields : List ArrowField)
/-- `arrow::datatypes::Field`: a name, a data type, and whether the field may hold nulls. -/
inductive ArrowField where
  | mk (name : FieldName) (dataType : ArrowDataType) (nullable : Bool)
end

def ArrowField.dataType : ArrowField → ArrowDataType
  | .mk _ dataType _ => dataType

def ArrowField.nullable : ArrowField → Bool
  | .mk _ _ nullable => nullable

@[simp] theorem ArrowField.dataType_mk (n : FieldName) (d : ArrowDataType) (b : Bool) :
    (ArrowField.mk n d b).dataType = d := rfl

@[simp] theorem ArrowField.nullable_mk (n : FieldName) (d : ArrowDataType) (b : Bool) :
    (ArrowField.mk n d b).nullable = b := rfl

mutual
/-- Structural equality test of data types. -/
def ArrowDataType.beq : ArrowDataType → ArrowDataType → Bool
  | .boolean, b => match b with | .boolean => true | _ => false
  | .int64, b => match b with | .int64 => true | _ => false
  | .float64, b => match b with | .float64 => true | _ => false
  | .utf8, b => match b with | .utf8 => true | _ => false
  | .binary, b => match b with | .binary => true | _ => false
  | .largeBinary, b => match b with | .largeBinary => true | _ => false
  | .timestamp x, b => match b with | .timestamp y => x == y | _ => false
  | .list f, b => match b with | .list g => ArrowField.beq f g | _ => false
  | .largeList f, b => match b with | .largeList g => ArrowField.beq f g | _ => false
  | .struct fs, b => match b with | .struct gs => ArrowField.beqList fs gs | _ => false
def ArrowField.beq : ArrowField → ArrowField → Bool
  | .mk n d x, .mk m e y => n == m && ArrowDataType.beq d e && x == y
def ArrowField.beqList : List ArrowField → List ArrowField → Bool
  | [], [] => true
  | f :: fs, g :: gs => ArrowField.beq f g && ArrowField.beqList fs gs
  | _, _ => false
end

mutual
theorem ArrowDataType.beq_iff : (a b : ArrowDataType) → ArrowDataType.beq a b = true ↔ a = b
  | .list f, b | .largeList f, b => by
    cases b <;> simp [ArrowDataType.beq, ArrowField.beq_iff f]
  | .struct fs, b => by cases b <;> simp [ArrowDataType.beq, ArrowField.beqList_iff fs]
  | .boolean, b | .int64, b | .float64, b | .utf8, b | .binary, b | .largeBinary, b
  | .timestamp _, b => by cases b <;> simp [ArrowDataType.beq]
theorem ArrowField.beq_iff : (f g : ArrowField) → ArrowField.beq f g = true ↔ f = g
  | .mk n d x, .mk m e y => by simp [ArrowField.beq, ArrowDataType.beq_iff d e, and_assoc]
theorem ArrowField.beqList_iff : (fs gs : List ArrowField) → ArrowField.beqList fs gs = true ↔ fs = gs
  | [], gs => by cases gs <;> simp [ArrowField.beqList]
  | f :: fs, gs => by
    cases gs <;> simp [ArrowField.beqList, ArrowField.beq_iff f, ArrowField.beqList_iff fs]
end

instance : DecidableEq ArrowDataType := fun a b => decidable_of_iff _ (ArrowDataType.beq_iff a b)

/-- Why a panic of the writer's Arrow code happens: an `Array` of another element type, a
value `array_of_structs` cannot split, a member beyond the struct's fields, an axis length,
a list offset or the byte offset of a string or binary array that does not fit its integer
type, and the arrow-rs constructors refusing their arguments. -/
inductive Panic where
  | arrayElementType
  | notSerializableAsTuple
  | columnIndex
  | shapeOverflow
  | offsetOverflow
  | byteOffsetOverflow
  | offsetBuffer
  | listArray
  | structArray
  deriving DecidableEq

/-- What stops the writer's Arrow code: one of its `WriteError`s, or a panic. -/
inductive WriteError where
  | typeMismatchWithSchema (v : Value) (t : ArrowDataType)
  | unsupportedType (t : EngineType)
  | bincode
  | panic (p : Panic)

mutual
/-- `arrow_data_type`. -/
def arrowDataType (settings : LakeWriterSettings) : EngineType → Except WriteError ArrowDataType
  | .bool => pure .boolean
  | .int | .duration => pure .int64
  | .float => pure .float64
  | .string | .json | .pointer => pure .utf8
  | .bytes | .pyObjectWrapper =>
    pure (if settings.use64bitSizeType then .largeBinary else .binary)
  | .dateTimeNaive => pure (.timestamp none)
  | .dateTimeUtc => pure (.timestamp (some settings.utcTimezoneName))
  | .optional wrapped => arrowDataType settings wrapped
  | .list wrappedType => do
    let wrappedArrowType ← arrowDataType settings wrappedType
    pure (.list (.mk .singleElement wrappedArrowType wrappedType.isOptional))
  | .array _ wrappedType => do
    let elementsArrowType ← match wrappedType with
      | .int => pure .int64
      | .float => pure .float64
      | _ => throw (.panic .arrayElementType)
    pure (.struct [.mk .shape (.list (.mk .singleElement .int64 true)) false,
      .mk .elements (.list (.mk .singleElement elementsArrowType true)) false])
  | .tuple wrappedTypes => .struct <$> tupleFields settings 0 wrappedTypes
  | .any => throw (.unsupportedType .any)
  | .future wrapped => throw (.unsupportedType (.future wrapped))
/-- The fields `arrow_data_type` makes for the members of a tuple, from the `index`-th on. -/
def tupleFields (settings : LakeWriterSettings) :
    ℕ → List EngineType → Except WriteError (List ArrowField)
  | _, [] => pure []
  | index, wrappedType :: wrappedTypes => do
    let nestedArrowType ← arrowDataType settings wrappedType
    let rest ← tupleFields settings (index + 1) wrappedTypes
    pure (.mk (.index index) nestedArrowType wrappedType.isOptional :: rest)
end

mutual
/-- The types the writer supports: all but `Any` and `Future`, with `Array` only over `Int`
or `Float`. With `emptyTuples` false, a tuple must also have a member. -/
def EngineType.supported (emptyTuples : Bool) : EngineType → Bool
  | .any | .future _ => false
  | .array _ .int | .array _ .float => true
  | .array _ _ => false
  | .optional t | .list t => t.supported emptyTuples
  | .tuple ts => (emptyTuples || !ts.isEmpty) && EngineType.supportedAll emptyTuples ts
  | .bool | .int | .float | .pointer | .string | .bytes | .dateTimeNaive | .dateTimeUtc
  | .duration | .json | .pyObjectWrapper => true
def EngineType.supportedAll (emptyTuples : Bool) : List EngineType → Bool
  | [] => true
  | t :: ts => t.supported emptyTuples && EngineType.supportedAll emptyTuples ts
end

mutual
/-- `arrow_data_type` gives every supported type a data type. -/
theorem arrowDataType_ok (settings : LakeWriterSettings) (emptyTuples : Bool) :
    (T : EngineType) → T.supported emptyTuples → ∃ A, arrowDataType settings T = .ok A
  | .bool, _ | .int, _ | .float, _ | .pointer, _ | .string, _ | .bytes, _ | .dateTimeNaive, _
  | .dateTimeUtc, _ | .duration, _ | .json, _ | .pyObjectWrapper, _ => ⟨_, rfl⟩
  | .array _ .int, _ | .array _ .float, _ => ⟨_, rfl⟩
  | .optional t, h => arrowDataType_ok settings emptyTuples t h
  | .list t, h => by
    obtain ⟨A, hA⟩ := arrowDataType_ok settings emptyTuples t h
    exact ⟨_, by rw [arrowDataType, hA]; rfl⟩
  | .tuple ts, h => by
    simp only [EngineType.supported, Bool.and_eq_true] at h
    obtain ⟨fs, hfs⟩ := tupleFields_ok settings emptyTuples 0 ts h.2
    exact ⟨_, by rw [arrowDataType, hfs]; rfl⟩
theorem tupleFields_ok (settings : LakeWriterSettings) (emptyTuples : Bool) (index : ℕ) :
    (ts : List EngineType) → EngineType.supportedAll emptyTuples ts →
      ∃ fs, tupleFields settings index ts = .ok fs
  | [], _ => ⟨_, rfl⟩
  | t :: ts, h => by
    simp only [EngineType.supportedAll, Bool.and_eq_true] at h
    obtain ⟨A, hA⟩ := arrowDataType_ok settings emptyTuples t h.1
    obtain ⟨fs, hfs⟩ := tupleFields_ok settings emptyTuples (index + 1) ts h.2
    exact ⟨_, by rw [tupleFields, hA, ok_bind, hfs]; rfl⟩
end

mutual
/-- `arrow_data_type` gives a data type only to supported types. -/
theorem supported_of_arrowDataType_ok (settings : LakeWriterSettings) :
    (T : EngineType) → ∀ A, arrowDataType settings T = .ok A → T.supported true = true
  | .bool, _, _ | .int, _, _ | .float, _, _ | .pointer, _, _ | .string, _, _ | .bytes, _, _
  | .dateTimeNaive, _, _ | .dateTimeUtc, _, _ | .duration, _, _ | .json, _, _
  | .pyObjectWrapper, _, _ => rfl
  | .optional t, A, h => supported_of_arrowDataType_ok settings t A h
  | .list t, _, h => by
    obtain ⟨A, hA, -⟩ := bind_eq_ok.1 h
    exact supported_of_arrowDataType_ok settings t A hA
  | .array _ w, _, h => by cases w <;> first | rfl | cases h
  | .tuple ts, _, h => by
    obtain ⟨fs, hfs, -⟩ := map_eq_ok.1 h
    simpa [EngineType.supported] using supportedAll_of_tupleFields_ok settings 0 ts fs hfs
  | .any, _, h | .future _, _, h => by cases h
/-- `arrow_data_type` gives fields only to members that are all supported. -/
theorem supportedAll_of_tupleFields_ok (settings : LakeWriterSettings) :
    (index : ℕ) → (ts : List EngineType) → ∀ fs, tupleFields settings index ts = .ok fs →
      EngineType.supportedAll true ts = true
  | _, [], _, _ => rfl
  | index, t :: ts, _, h => by
    obtain ⟨A, hA, h⟩ := bind_eq_ok.1 h
    obtain ⟨rest, hrest, -⟩ := bind_eq_ok.1 h
    simp only [EngineType.supportedAll, Bool.and_eq_true]
    exact ⟨supported_of_arrowDataType_ok settings t A hA,
      supportedAll_of_tupleFields_ok settings (index + 1) ts rest hrest⟩
end

mutual
/-- The only errors of `arrow_data_type`: `UnsupportedType`, and the panic on an array of
another element type than `Int` or `Float`. -/
theorem arrowDataType_error (settings : LakeWriterSettings) :
    (T : EngineType) → ∀ e, arrowDataType settings T = .error e →
      (∃ t, e = .unsupportedType t) ∨ e = .panic .arrayElementType
  | .bool, _, h | .int, _, h | .float, _, h | .pointer, _, h | .string, _, h | .bytes, _, h
  | .dateTimeNaive, _, h | .dateTimeUtc, _, h | .duration, _, h | .json, _, h
  | .pyObjectWrapper, _, h => by cases h
  | .optional t, e, h => arrowDataType_error settings t e h
  | .list t, e, h => by
    rcases bind_eq_error.1 h with h | ⟨_, _, h⟩
    · exact arrowDataType_error settings t e h
    · cases h
  | .array _ w, _, h => by cases w <;> cases h <;> exact .inr rfl
  | .tuple ts, e, h => by
    cases hfs : tupleFields settings 0 ts with
    | error e' =>
      rw [arrowDataType, hfs] at h
      cases h
      exact tupleFields_error settings 0 ts _ hfs
    | ok fs => rw [arrowDataType, hfs] at h; cases h
  | .any, _, h | .future _, _, h => by cases h; exact .inl ⟨_, rfl⟩
/-- The only errors of the fields of a tuple's members are those of `arrow_data_type`. -/
theorem tupleFields_error (settings : LakeWriterSettings) :
    (index : ℕ) → (ts : List EngineType) → ∀ e, tupleFields settings index ts = .error e →
      (∃ t, e = .unsupportedType t) ∨ e = .panic .arrayElementType
  | _, [], _, h => by cases h
  | index, t :: ts, e, h => by
    rcases bind_eq_error.1 h with h | ⟨_, _, h⟩
    · exact arrowDataType_error settings t e h
    rcases bind_eq_error.1 h with h | ⟨_, _, h⟩
    · exact tupleFields_error settings (index + 1) ts e h
    · cases h
end

/-- A `ValueField`: the fields `construct_schema` reads. -/
structure ValueField where
  name : String
  type : EngineType

/-- A field of the schema: `ArrowField::new(name, data_type, nullable).with_metadata(metadata)`. -/
structure SchemaField where
  name : String
  dataType : ArrowDataType
  nullable : Bool
  metadata : List (String × String)

section Schema

variable (settings : LakeWriterSettings)
  (metadataPerColumn : String → Option (List (String × String))) (canBeNone : EngineType → Bool)

/-- The field `construct_schema` makes for a column: nullable when its type can be `None`. -/
def columnField (field : ValueField) : Except WriteError SchemaField := do
  let dataType ← arrowDataType settings field.type
  pure ⟨field.name, dataType, canBeNone field.type, (metadataPerColumn field.name).getD []⟩

/-- The field `construct_schema` makes for a field the maintenance mode adds: never nullable. -/
def additionalField (field : String × EngineType) : Except WriteError SchemaField := do
  let dataType ← arrowDataType settings field.2
  pure ⟨field.1, dataType, false, (metadataPerColumn field.1).getD []⟩

/-- `construct_schema`: the first column or added field whose type has no Arrow data type stops
it with that error. -/
def constructSchema (valueFields : List ValueField)
    (additionalOutputFields : List (String × EngineType)) : Except WriteError (List SchemaField) := do
  let schemaFields ← valueFields.mapM (columnField settings metadataPerColumn canBeNone)
  let additionalFields ← additionalOutputFields.mapM (additionalField settings metadataPerColumn)
  pure (schemaFields ++ additionalFields)

theorem columnField_eq_ok {field : ValueField} {s : SchemaField} :
    columnField settings metadataPerColumn canBeNone field = .ok s ↔ ∃ A,
      arrowDataType settings field.type = .ok A ∧
        s = ⟨field.name, A, canBeNone field.type, (metadataPerColumn field.name).getD []⟩ := by
  rw [columnField, bind_eq_ok]
  exact exists_congr fun A => and_congr_right fun _ => ⟨fun h => (Except.ok.inj h).symm,
    fun h => h ▸ rfl⟩

theorem additionalField_eq_ok {field : String × EngineType} {s : SchemaField} :
    additionalField settings metadataPerColumn field = .ok s ↔ ∃ A,
      arrowDataType settings field.2 = .ok A ∧
        s = ⟨field.1, A, false, (metadataPerColumn field.1).getD []⟩ := by
  rw [additionalField, bind_eq_ok]
  exact exists_congr fun A => and_congr_right fun _ => ⟨fun h => (Except.ok.inj h).symm,
    fun h => h ▸ rfl⟩

/-- `construct_schema` builds a schema exactly when every column's type and every added field's
type is supported; the schema is then the columns' fields in order, each named as its column,
with its type's Arrow data type, nullable as `can_be_none` says and with the column's metadata,
followed by the added fields, never nullable. -/
theorem construct_schema_fields (valueFields : List ValueField)
    (additionalOutputFields : List (String × EngineType)) :
    ((∃ schema, constructSchema settings metadataPerColumn canBeNone valueFields
        additionalOutputFields = .ok schema) ↔
      (∀ field ∈ valueFields, field.type.supported true = true) ∧
        ∀ field ∈ additionalOutputFields, field.2.supported true = true) ∧
    ∀ schema, constructSchema settings metadataPerColumn canBeNone valueFields
        additionalOutputFields = .ok schema →
      ∃ columns added, schema = columns ++ added ∧
        List.Forall₂ (fun field s => ∃ A, arrowDataType settings field.type = .ok A ∧
          s = ⟨field.name, A, canBeNone field.type, (metadataPerColumn field.name).getD []⟩)
          valueFields columns ∧
        List.Forall₂ (fun field s => ∃ A, arrowDataType settings field.2 = .ok A ∧
          s = ⟨field.1, A, false, (metadataPerColumn field.1).getD []⟩)
          additionalOutputFields added := by
  have hfields : ∀ schema, constructSchema settings metadataPerColumn canBeNone valueFields
      additionalOutputFields = .ok schema → ∃ columns added, schema = columns ++ added ∧
        List.Forall₂ (fun field s => columnField settings metadataPerColumn canBeNone field = .ok s)
          valueFields columns ∧
        List.Forall₂ (fun field s => additionalField settings metadataPerColumn field = .ok s)
          additionalOutputFields added := fun schema h => by
    obtain ⟨columns, hcolumns, h⟩ := bind_eq_ok.1 h
    obtain ⟨added, hadded, h⟩ := bind_eq_ok.1 h
    exact ⟨columns, added, (Except.ok.inj h).symm, forall₂_of_mapM_eq_ok hcolumns,
      forall₂_of_mapM_eq_ok hadded⟩
  refine ⟨⟨fun ⟨schema, h⟩ => ?_, fun ⟨hcolumns, hadded⟩ => ?_⟩, fun schema h => ?_⟩
  · obtain ⟨columns, added, -, hcolumns, hadded⟩ := hfields schema h
    refine ⟨fun field hfield => ?_, fun field hfield => ?_⟩
    · obtain ⟨s, hs⟩ := exists_of_forall₂_of_mem hcolumns hfield
      obtain ⟨A, hA, -⟩ := (columnField_eq_ok settings metadataPerColumn canBeNone).1 hs
      exact supported_of_arrowDataType_ok settings _ A hA
    · obtain ⟨s, hs⟩ := exists_of_forall₂_of_mem hadded hfield
      obtain ⟨A, hA, -⟩ := (additionalField_eq_ok settings metadataPerColumn).1 hs
      exact supported_of_arrowDataType_ok settings _ A hA
  · obtain ⟨columns, hcolumns, -⟩ := mapM_exists_ok (P := fun _ _ => True) valueFields
      fun field hfield => by
        obtain ⟨A, hA⟩ := arrowDataType_ok settings true _ (hcolumns field hfield)
        exact ⟨_, (columnField_eq_ok settings metadataPerColumn canBeNone).2 ⟨A, hA, rfl⟩, trivial⟩
    obtain ⟨added, hadded, -⟩ := mapM_exists_ok (P := fun _ _ => True) additionalOutputFields
      fun field hfield => by
        obtain ⟨A, hA⟩ := arrowDataType_ok settings true _ (hadded field hfield)
        exact ⟨_, (additionalField_eq_ok settings metadataPerColumn).2 ⟨A, hA, rfl⟩, trivial⟩
    exact ⟨_, by rw [constructSchema, hcolumns, ok_bind, hadded, ok_bind]; rfl⟩
  · obtain ⟨columns, added, rfl, hcolumns, hadded⟩ := hfields schema h
    exact ⟨columns, added, rfl,
      hcolumns.imp fun _ _ => (columnField_eq_ok settings metadataPerColumn canBeNone).1,
      hadded.imp fun _ _ => (additionalField_eq_ok settings metadataPerColumn).1⟩

end Schema

end Arrow
end Pathway
