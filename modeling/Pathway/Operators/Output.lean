import Pathway.Engine.Value
import Mathlib.Data.Vector.Defs

/-! The order in which an output connector writes a batch: `prepare_batch_for_output` sorts the
batch by the tuple values at `sort_by_indices`, the first index that tells two updates apart
deciding. The order of `Value` (derived in `value.rs`) is a parameter, a lawful three-way
comparison; Rust's `sort_by` is stable, and is modelled by `List.mergeSort`. The tuples of a
batch are rows of one table, of one width, and the sort indices are columns of it: `lhs[*index]`
panics on an index past a tuple's end, which the types `Mathlib.Vector Value width` and
`Fin width` rule out here. -/

namespace Pathway.Output

open Batteries

variable (cmp : Value → Value → Ordering) {width : ℕ}

/-- The comparison closure of `prepare_batch_for_output`: the values at the indices, in turn,
until two differ. -/
def compareAtIndices : List (Fin width) → Mathlib.Vector Value width → Mathlib.Vector Value width →
    Ordering
  | [], _, _ => .eq
  | index :: indices, lhs, rhs =>
    (cmp (lhs.get index) (rhs.get index)).then (compareAtIndices indices lhs rhs)

/-- `prepare_batch_for_output`: the batch, stably sorted by `compareAtIndices`. -/
def prepareBatchForOutput (batch : List ((Key × Mathlib.Vector Value width) × ℤ))
    (sortByIndices : List (Fin width)) : List ((Key × Mathlib.Vector Value width) × ℤ) :=
  batch.mergeSort fun lhs rhs => (compareAtIndices cmp sortByIndices lhs.1.2 rhs.1.2).isLE

@[simp] theorem isLE_eq_true_iff (o : Ordering) : o.isLE = true ↔ o ≠ .gt := by
  cases o <;> decide

/-- One index compares tuples as `cmp` compares their values there. -/
instance transCmp_get [TransCmp cmp] (index : Fin width) :
    TransCmp fun lhs rhs : Mathlib.Vector Value width => cmp (lhs.get index) (rhs.get index) where
  symm _ _ := OrientedCmp.symm _ _
  le_trans := TransCmp.le_trans

/-- Comparing at a list of indices is a lawful order whenever `cmp` is: the lexicographic
order of the per-index orders. -/
instance transCmp_compareAtIndices [TransCmp cmp] :
    ∀ indices : List (Fin width), TransCmp (compareAtIndices cmp indices)
  | [] => { symm := fun _ _ => rfl, le_trans := fun _ _ => by simp [compareAtIndices] }
  | index :: indices =>
    have := transCmp_compareAtIndices indices
    inferInstanceAs (TransCmp (compareLex
      (fun lhs rhs : Mathlib.Vector Value width => cmp (lhs.get index) (rhs.get index))
      (compareAtIndices cmp indices)))

section Sorted

variable [TransCmp cmp] (indices : List (Fin width))

theorem batchLe_trans (a b c : (Key × Mathlib.Vector Value width) × ℤ) :
    (compareAtIndices cmp indices a.1.2 b.1.2).isLE = true →
      (compareAtIndices cmp indices b.1.2 c.1.2).isLE = true →
        (compareAtIndices cmp indices a.1.2 c.1.2).isLE = true := by
  simp only [isLE_eq_true_iff]
  exact TransCmp.le_trans

theorem batchLe_total (a b : (Key × Mathlib.Vector Value width) × ℤ) :
    ((compareAtIndices cmp indices a.1.2 b.1.2).isLE ||
      (compareAtIndices cmp indices b.1.2 a.1.2).isLE) = true := by
  rw [Bool.or_eq_true, isLE_eq_true_iff, isLE_eq_true_iff, OrientedCmp.cmp_ne_gt]
  cases compareAtIndices cmp indices b.1.2 a.1.2 <;> decide

/-- `prepare_batch_for_output` reorders the batch and nothing else: every update is kept as
often as the batch has it, the result is in the order of the values at the sort indices, and
updates the batch already has in that order (in particular updates that tie on every sort
index) keep their relative order. -/
theorem prepare_batch_for_output_sorts (batch : List ((Key × Mathlib.Vector Value width) × ℤ)) :
    (prepareBatchForOutput cmp batch indices).Perm batch ∧
      (prepareBatchForOutput cmp batch indices).Pairwise
        (fun lhs rhs => compareAtIndices cmp indices lhs.1.2 rhs.1.2 ≠ .gt) ∧
      ∀ c : List ((Key × Mathlib.Vector Value width) × ℤ), c.Sublist batch →
        c.Pairwise (fun lhs rhs => compareAtIndices cmp indices lhs.1.2 rhs.1.2 ≠ .gt) →
          c.Sublist (prepareBatchForOutput cmp batch indices) := by
  refine ⟨List.mergeSort_perm _ _, ?_, fun c hc hsorted => ?_⟩
  · exact (List.sorted_mergeSort (batchLe_trans cmp indices) (batchLe_total cmp indices) batch).imp
      (isLE_eq_true_iff _).1
  · exact List.sublist_mergeSort (batchLe_trans cmp indices) (batchLe_total cmp indices)
      (hsorted.imp (isLE_eq_true_iff _).2) hc

end Sorted

/-- A sort on integer columns, the order of `Value::Int` among integers. -/
def intRank : Value → ℕ
  | .int n => n.toNat
  | _ => 0

/-- A batch of three updates of two-column tuples. -/
def sampleBatch : List ((Key × Mathlib.Vector Value 2) × ℤ) :=
  [((1, ⟨[.int 3, .int 1], rfl⟩), 1), ((2, ⟨[.int 1, .int 2], rfl⟩), 1),
    ((3, ⟨[.int 3, .int 0], rfl⟩), -1)]

theorem prepare_batch_for_output_sorts_ints :
    TransCmp (compareOn intRank) ∧
      ((prepareBatchForOutput (compareOn intRank) sampleBatch [0, 1]).Perm sampleBatch ∧
        (prepareBatchForOutput (compareOn intRank) sampleBatch [0, 1]).Pairwise
          (fun lhs rhs => compareAtIndices (compareOn intRank) [0, 1] lhs.1.2 rhs.1.2 ≠ .gt) ∧
        ∀ c : List ((Key × Mathlib.Vector Value 2) × ℤ), c.Sublist sampleBatch →
          c.Pairwise (fun lhs rhs => compareAtIndices (compareOn intRank) [0, 1] lhs.1.2 rhs.1.2 ≠ .gt) →
            c.Sublist (prepareBatchForOutput (compareOn intRank) sampleBatch [0, 1])) :=
  ⟨inferInstance, prepare_batch_for_output_sorts (compareOn intRank) [0, 1] sampleBatch⟩

example : (prepareBatchForOutput (compareOn intRank) sampleBatch [0, 1]).map (·.1.1) =
    [2, 3, 1] := by
  simp [prepareBatchForOutput, sampleBatch, List.mergeSort, List.splitInTwo, compareAtIndices,
    compareOn, intRank, List.cons_merge_cons, compare, compareOfLessAndEq, Ordering.then,
    Mathlib.Vector.get]

end Pathway.Output
