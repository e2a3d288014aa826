import Mathlib.Algebra.BigOperators.Group.List
import Mathlib.Algebra.Order.Ring.Nat

/-! Keys, values and errors of the engine, as the dataflow operators and the Arrow
encoder read them. The value type is nested (tuples hold values), so its equality is
decided by a structural Boolean comparison proved to agree with `=`. -/
namespace Pathway

/-- A row key: the 128-bit `Key(u128)` of `engine/value.rs`. -/
structure Key where
  val : BitVec 128
  deriving DecidableEq, Repr

instance (n : ℕ) : OfNat Key n := ⟨⟨BitVec.ofNat 128 n⟩⟩

theorem Key.eq_of_toNat_eq {a b : Key} (h : a.val.toNat = b.val.toNat) : a = b := by
  cases a; cases b; simpa using BitVec.eq_of_toNat_eq h

/-- An `f64`, by its IEEE bit pattern. -/
structure F64 where
  bits : UInt64
  deriving DecidableEq, Repr

/-- An n-dimensional array (`ndarray::ArrayD`): its shape and its elements in logical
row-major order. `ndarray` keeps the product of the non-zero axis lengths within
`isize::MAX`, so every axis length fits an `i64`. -/
structure NdArray (α : Type) where
  shape : List ℕ
  elems : List α
  elems_length : elems.length = shape.prod
  size_lt : (shape.filter (· ≠ 0)).prod < 2 ^ 63

theorem NdArray.ext_iff' {α : Type} {a b : NdArray α} :
    a = b ↔ a.shape = b.shape ∧ a.elems = b.elems := by
  cases a; cases b; simp

instance {α : Type} [DecidableEq α] : DecidableEq (NdArray α) := fun a b =>
  decidable_of_iff (a.shape = b.shape ∧ a.elems = b.elems) NdArray.ext_iff'.symm

/-- A `serde_json::Value`; numbers are kept by their decimal text. -/
inductive Json where
  | null
  | bool (b : Bool)
  | number (n : String)
  | string (s : String)
  | array (xs : List Json)
  | object (kvs : List (String × Json))

mutual
/-- Structural equality test of JSON values. -/
def Json.beq : Json → Json → Bool
  | .null, b => match b with | .null => true | _ => false
  | .bool x, b => match b with | .bool y => x == y | _ => false
  | .number x, b => match b with | .number y => x == y | _ => false
  | .string x, b => match b with | .string y => x == y | _ => false
  | .array xs, b => match b with | .array ys => Json.beqList xs ys | _ => false
  | .object xs, b => match b with | .object ys => Json.beqFields xs ys | _ => false
def Json.beqList : List Json → List Json → Bool
  | [], [] => true
  | x :: xs, y :: ys => Json.beq x y && Json.beqList xs ys
  | _, _ => false
def Json.beqFields : List (String × Json) → List (String × Json) → Bool
  | [], [] => true
  | (k, x) :: xs, (l, y) :: ys => k == l && Json.beq x y && Json.beqFields xs ys
  | _, _ => false
end

mutual
theorem Json.beq_iff : (a b : Json) → Json.beq a b = true ↔ a = b
  | .null, b | .bool _, b | .number _, b | .string _, b => by cases b <;> simp [Json.beq]
  | .array xs, b => by cases b <;> simp [Json.beq, Json.beqList_iff xs]
  | .object xs, b => by cases b <;> simp [Json.beq, Json.beqFields_iff xs]
theorem Json.beqList_iff : (xs ys : List Json) → Json.beqList xs ys = true ↔ xs = ys
  | [], ys => by cases ys <;> simp [Json.beqList]
  | x :: xs, ys => by cases ys <;> simp [Json.beqList, Json.beq_iff x, Json.beqList_iff xs]
theorem Json.beqFields_iff :
    (xs ys : List (String × Json)) → Json.beqFields xs ys = true ↔ xs = ys
  | [], ys => by cases ys <;> simp [Json.beqFields]
  | (k, x) :: xs, ys => by
    cases ys with
    | nil => simp [Json.beqFields]
    | cons y ys =>
      obtain ⟨l, y⟩ := y
      simp [Json.beqFields, Json.beq_iff x, Json.beqFields_iff xs, and_assoc]
end

instance : DecidableEq Json := fun a b => decidable_of_iff _ (Json.beq_iff a b)

/-- The engine's `Value`. Date-times and durations are `i64` nanoseconds; a Python object
is known to the engine only through its handle. -/
inductive Value where
  | none
  | bool (b : Bool)
  | int (i : ℤ)
  | float (f : F64)
  | pointer (k : Key)
  | string (s : String)
  | bytes (b : List UInt8)
  | tuple (vs : List Value)
  | intArray (a : NdArray ℤ)
  | floatArray (a : NdArray F64)
  | dateTimeNaive (t : ℤ)
  | dateTimeUtc (t : ℤ)
  | duration (d : ℤ)
  | json (j : Json)
  | error
  | pending
  | pyObjectWrapper (handle : ℕ)

mutual
/-- Structural equality test of values. -/
def Value.beq : Value → Value → Bool
  | .none, b => match b with | .none => true | _ => false
  | .error, b => match b with | .error => true | _ => false
  | .pending, b => match b with | .pending => true | _ => false
  | .bool x, b => match b with | .bool y => x == y | _ => false
  | .int x, b => match b with | .int y => x == y | _ => false
  | .float x, b => match b with | .float y => x == y | _ => false
  | .pointer x, b => match b with | .pointer y => x == y | _ => false
  | .string x, b => match b with | .string y => x == y | _ => false
  | .bytes x, b => match b with | .bytes y => x == y | _ => false
  | .tuple xs, b => match b with | .tuple ys => Value.beqList xs ys | _ => false
  | .intArray x, b => match b with | .intArray y => x == y | _ => false
  | .floatArray x, b => match b with | .floatArray y => x == y | _ => false
  | .dateTimeNaive x, b => match b with | .dateTimeNaive y => x == y | _ => false
  | .dateTimeUtc x, b => match b with | .dateTimeUtc y => x == y | _ => false
  | .duration x, b => match b with | .duration y => x == y | _ => false
  | .json x, b => match b with | .json y => x == y | _ => false
  | .pyObjectWrapper x, b => match b with | .pyObjectWrapper y => x == y | _ => false
def Value.beqList : List Value → List Value → Bool
  | [], [] => true
  | a :: as, b :: bs => Value.beq a b && Value.beqList as bs
  | _, _ => false
end

mutual
theorem Value.beq_iff : (a b : Value) → Value.beq a b = true ↔ a = b
  | .tuple as, b => by cases b <;> simp [Value.beq, Value.beqList_iff as]
  | .none, b | .bool _, b | .int _, b | .float _, b | .pointer _, b | .string _, b
  | .bytes _, b | .intArray _, b | .floatArray _, b | .dateTimeNaive _, b
  | .dateTimeUtc _, b | .duration _, b | .json _, b | .error, b | .pending, b
  | .pyObjectWrapper _, b => by cases b <;> simp [Value.beq]
theorem Value.beqList_iff : (as bs : List Value) → Value.beqList as bs = true ↔ as = bs
  | [], bs => by cases bs <;> simp [Value.beqList]
  | a :: as, bs => by cases bs <;> simp [Value.beqList, Value.beq_iff a, Value.beqList_iff as]
end

instance : DecidableEq Value := fun a b => decidable_of_iff _ (Value.beq_iff a b)

example : Value.tuple [.int 3, .none] ≠ .tuple [.int 3] := by decide

namespace Value

/-- `Value::as_tuple`. -/
def asTuple : Value → Option (List Value)
  | .tuple vs => some vs
  | _ => Option.none

/-- `Value::as_pointer`. -/
def asPointer : Value → Option Key
  | .pointer k => some k
  | _ => Option.none

/-- `Value::as_bool`. -/
def asBool : Value → Option Bool
  | .bool b => some b
  | _ => Option.none

@[simp] theorem asTuple_tuple (vs : List Value) : (tuple vs).asTuple = some vs := rfl
@[simp] theorem asBool_bool (b : Bool) : (bool b).asBool = some b := rfl

end Value

/-- The data errors operators put into the error log (`DataError` of `engine/error.rs`). -/
inductive DataError where
  | duplicateKey (k : Key)
  | keyMissingInOutputTable (k : Key)
  | keyMissingInInputTable (k : Key)
  | updatingNonExistingRow (k : Key)
  | expectedAppendOnly (k : Key)
  | expectedDeletion (k : Key)
  | errorInJoin
  | errorInGroupby
  | expressionFailed (msg : String)
  | valueError (msg : String)
  | errorInFilter
  | errorInReindex
  | errorInDeduplicate
  | errorInOutput
  | appendOnlyViolation (k : Key) (diff : ℤ)
  deriving DecidableEq, Repr

/-- What stops a worker: an error sent to the error reporter (`unwrap_with_reporter`,
`report_and_panic`) or a failed assertion. -/
inductive Error where
  | reported (msg : String)
  | dataReported (e : DataError)
  | assertion (what : String)
  deriving DecidableEq, Repr

@[simp] theorem ok_bind {ε α β : Type} (a : α) (f : α → Except ε β) :
    (Except.ok a >>= f) = f a := rfl
@[simp] theorem error_bind {ε α β : Type} (e : ε) (f : α → Except ε β) :
    (Except.error e >>= f) = Except.error e := rfl
@[simp] theorem map_ok {ε α β : Type} (f : α → β) (a : α) :
    (f <$> (Except.ok a : Except ε α)) = Except.ok (f a) := rfl
@[simp] theorem map_error {ε α β : Type} (f : α → β) (e : ε) :
    (f <$> (Except.error e : Except ε α)) = Except.error e := rfl
@[simp] theorem pure_eq_ok {ε α : Type} (a : α) : (pure a : Except ε α) = Except.ok a := rfl
@[simp] theorem throw_eq_error {ε α : Type} (e : ε) : (throw e : Except ε α) = Except.error e := rfl

/-- A bind that succeeds: its first computation succeeds, then the rest on its result. -/
theorem bind_eq_ok {ε α β : Type} {x : Except ε α} {f : α → Except ε β} {b : β} :
    x >>= f = .ok b ↔ ∃ a, x = .ok a ∧ f a = .ok b := by
  cases x <;> simp

/-- A bind that fails: its first computation fails, or the rest does on its result. -/
theorem bind_eq_error {ε α β : Type} {x : Except ε α} {f : α → Except ε β} {e : ε} :
    x >>= f = .error e ↔ x = .error e ∨ ∃ a, x = .ok a ∧ f a = .error e := by
  cases x <;> simp

/-- A map that succeeds: its computation succeeds. -/
theorem map_eq_ok {ε α β : Type} {x : Except ε α} {f : α → β} {b : β} :
    f <$> x = .ok b ↔ ∃ a, x = .ok a ∧ f a = b := by
  cases x <;> simp

/-- A map whose function succeeds on every element. -/
theorem mapM_eq_ok {ε α β : Type} {f : α → Except ε β} (g : α → β) :
    ∀ l : List α, (∀ a ∈ l, f a = .ok (g a)) → l.mapM f = .ok (l.map g)
  | [], _ => rfl
  | a :: l, h => by
    rw [List.mapM_cons, h a (List.mem_cons_self _ _), ok_bind,
      mapM_eq_ok g l fun b hb => h b (List.mem_cons_of_mem _ hb)]
    rfl

/-- A map whose function succeeds on every element with a result related to it gives the
results in order. -/
theorem mapM_exists_ok {ε β : Type} {α : Type _} {f : α → Except ε β} {P : α → β → Prop} :
    ∀ l : List α, (∀ a ∈ l, ∃ b, f a = .ok b ∧ P a b) →
      ∃ bs, l.mapM f = .ok bs ∧ List.Forall₂ P l bs
  | [], _ => ⟨[], rfl, .nil⟩
  | a :: l, h => by
    obtain ⟨b, hb, hP⟩ := h a (List.mem_cons_self _ _)
    obtain ⟨bs, hbs, hPs⟩ := mapM_exists_ok l fun a' ha' => h a' (List.mem_cons_of_mem _ ha')
    exact ⟨b :: bs, by rw [List.mapM_cons, hb, ok_bind, hbs, ok_bind]; rfl, .cons hP hPs⟩

/-- A traversal that succeeds relates each element to its result. -/
theorem forall₂_of_mapM_eq_ok {ε β : Type} {α : Type _} {f : α → Except ε β} :
    ∀ {l : List α} {bs : List β}, l.mapM f = .ok bs → List.Forall₂ (fun a b => f a = .ok b) l bs
  | [], _, h => by cases h; exact .nil
  | a :: l, _, h => by
    rw [List.mapM_cons] at h
    obtain ⟨b, hb, h⟩ := bind_eq_ok.1 h
    obtain ⟨rest, hrest, h⟩ := bind_eq_ok.1 h
    cases h
    exact .cons hb (forall₂_of_mapM_eq_ok hrest)

/-- Each element on the left of a `Forall₂` has a partner on the right. -/
theorem exists_of_forall₂_of_mem {α β : Type _} {R : α → β → Prop} {l : List α} {bs : List β}
    (h : List.Forall₂ R l bs) {a : α} (ha : a ∈ l) : ∃ b, R a b := by
  induction h with
  | nil => cases ha
  | cons hab _ ih =>
    rcases List.mem_cons.1 ha with rfl | ha
    · exact ⟨_, hab⟩
    · exact ih ha

/-- A traversal fails when it fails on one element. -/
theorem mapM_exists_error {ε α β : Type} {f : α → Except ε β} :
    ∀ {l : List α}, (∃ a ∈ l, ∃ e, f a = .error e) → ∃ e, l.mapM f = .error e
  | [], ⟨_, ha, _⟩ => absurd ha (List.not_mem_nil _)
  | a :: l, ⟨x, hx, e, he⟩ => by
    rw [List.mapM_cons]
    cases hfa : f a with
    | error e' => exact ⟨e', rfl⟩
    | ok b =>
      rcases List.mem_cons.1 hx with rfl | hx
      · rw [he] at hfa; cases hfa
      · obtain ⟨e', he'⟩ := mapM_exists_error ⟨x, hx, e, he⟩
        exact ⟨e', by rw [ok_bind, he', error_bind]⟩

/-- A column path. `ColumnPath::extract` is not in the source: a path is modelled by its
extraction, which fails with the error the reporter then receives. -/
structure ColumnPath where
  extract : Key → Value → Except Error Value

/-- `paths.iter().map(|path| path.extract(key, values)).collect::<Result<Vec<_>>>()`. -/
def ColumnPath.extractAll (paths : List ColumnPath) (k : Key) (v : Value) :
    Except Error (List Value) :=
  paths.mapM fun p => p.extract k v

/-- `ColumnPath::ValuePath(vec![])`: the whole values of a row. -/
def ColumnPath.whole : ColumnPath := ⟨fun _ v => .ok v⟩

@[simp] theorem ColumnPath.extract_whole (k : Key) (v : Value) : ColumnPath.whole.extract k v = .ok v :=
  rfl

end Pathway
