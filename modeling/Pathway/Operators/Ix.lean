import Pathway.Engine.Table

/-! `ix_table` and `restrict_or_override_table_universe` at one time, and the step both end
with, `make_output_keys_match_input_keys`: an input row that is not the first component of
an output row is added with `Value::Error` and logged as `KeyMissingInOutputTable`.
Persistence is off: `maybe_persist` and `filter_out_persisted` return their input. -/
namespace Pathway
namespace Ix
open ZSet

/-- `as_pointer().unwrap_with_reporter(..)`. -/
def unwrapPointer (v : Value) : Except Error Key :=
  match v.asPointer with
  | some p => pure p
  | none => throw (.reported "as_pointer")

/-- A row of the key table with the value of its key column. -/
abbrev Extracted := Key × Value × Value

/-- `assert_input_keys_match_output_keys`: every key whose count differs between the input
keys and the output, logged as missing from the output or from the input. -/
def assertInputKeysMatchOutputKeys (inputKeys : ZSet Key) (output : ZSet Row) : List DataError :=
  List.map (fun u => if 0 < u.2 then .keyMissingInOutputTable u.1 else .keyMissingInInputTable u.1)
    (consolidate (inputKeys ++ negate (ZSet.map Prod.fst output)))

section PerRow
variable {K : ZSet Row}

end PerRow

/-- The value of a row's key column; `Value::Error` where the path fails. -/
def keyValueOf (path : ColumnPath) (r : Row) : Value :=
  match path.extract r.1 r.2 with
  | .ok v => v
  | .error _ => .error

/-- A key-table row with the value of its key column. -/
def extracted (path : ColumnPath) (r : Row) : Extracted := (r.1, r.2, keyValueOf path r)

section IxTable
variable {path : ColumnPath} {S K : ZSet Row}

end IxTable

end Ix
end Pathway
