import Pathway.Engine.ZSet
import Pathway.Engine.Value

/-! `forget_immediately` and `filter_out_results_of_forgetting` over the whole history of a
collection: its updates with their times. A `Timestamp` is its `u64`; whether a time is
original (`Timestamp::is_original`, not among these sources) is a parameter. The forgetting
stream negates every update and delays it by one, to a time that is meant not to be
original, so that filtering the original times recovers the input. -/
namespace Pathway
namespace Forget
open ZSet

/-- The updates of a collection over its history: records with their times, and diffs. -/
abbrev Timed (α : Type) := ZSet (α × ℕ)

section
variable {α : Type} [DecidableEq α] (isOriginal : ℕ → Bool)

/-- `negate().delay(|time| Timestamp(time.0 + 1))`: every update retracted one time later
(the `u64` addition wraps). -/
def forgettingStream (z : Timed α) : Timed α :=
  ZSet.map (fun x => (x.1, (x.2 + 1) % 2 ^ 64)) (negate z)

/-- `forget_immediately`: the input, whose times the `inspect` asserts to be original,
concatenated with its forgetting stream. -/
def forgetImmediately (input : Timed α) : Except Error (Timed α) :=
  if input.all fun u => isOriginal u.1.2 then pure (input ++ forgettingStream input)
  else throw (.assertion "Neu time encountered at forget() input.")

/-- `filter_out_results_of_forgetting`: the updates at original times. -/
def filterOutResultsOfForgetting (z : Timed α) : Timed α :=
  ZSet.filter (fun x => isOriginal x.2) z

/-- The content of a collection at time `τ`: its updates at times up to `τ`. -/
def accumulatedAt (z : Timed α) (τ : ℕ) : ZSet α :=
  ZSet.map Prod.fst (ZSet.filter (fun x => x.2 ≤ τ) z)

/-- The updates of a collection at time `τ` exactly. -/
def atTime (z : Timed α) (τ : ℕ) : ZSet α :=
  ZSet.map Prod.fst (ZSet.filter (fun x => x.2 = τ) z)

omit [DecidableEq α] in
@[simp] theorem forgettingStream_cons (x : α) (t : ℕ) (d : ℤ) (z : Timed α) :
    forgettingStream (((x, t), d) :: z) = ((x, (t + 1) % 2 ^ 64), -d) :: forgettingStream z :=
  rfl

theorem count_accumulatedAt_cons (τ : ℕ) (x : α) (t : ℕ) (d : ℤ) (z : Timed α) (a : α) :
    count (accumulatedAt (((x, t), d) :: z) τ) a =
      (if t ≤ τ ∧ x = a then d else 0) + count (accumulatedAt z τ) a := by
  by_cases ht : t ≤ τ <;> simp [accumulatedAt, ZSet.filter, ZSet.map, List.filter_cons, ht]

theorem count_atTime_cons (τ : ℕ) (x : α) (t : ℕ) (d : ℤ) (z : Timed α) (a : α) :
    count (atTime (((x, t), d) :: z) τ) a =
      (if t = τ ∧ x = a then d else 0) + count (atTime z τ) a := by
  by_cases ht : t = τ <;> simp [atTime, ZSet.filter, ZSet.map, List.filter_cons, ht]

/-- What an update and its retraction one time later add to the content at `τ`: the update
if it is at `τ`, nothing otherwise. -/
theorem accumulatedAt_telescopes (τ : ℕ) (a : α) : ∀ z : Timed α, (∀ u ∈ z, u.1.2 + 1 < 2 ^ 64) →
    count (accumulatedAt z τ) a + count (accumulatedAt (forgettingStream z) τ) a =
      count (atTime z τ) a
  | [], _ => rfl
  | ((x, t), d) :: z, h => by
    have ih := accumulatedAt_telescopes τ a z fun u hu => h u (List.mem_cons_of_mem _ hu)
    have ht : t + 1 < 2 ^ 64 := h _ (List.mem_cons_self _ _)
    rw [forgettingStream_cons, count_accumulatedAt_cons, count_accumulatedAt_cons,
      count_atTime_cons, Nat.mod_eq_of_lt ht]
    by_cases hx : x = a
    · simp only [hx, and_true]
      split_ifs <;> omega
    · simp only [hx, and_false, if_false]
      omega

omit [DecidableEq α] in
/-- On inputs at original times whose next times are not original, the forgetting stream is
dropped by the filter. -/
theorem filterOut_forgetting {input : Timed α}
    (h : ∀ u ∈ input, isOriginal u.1.2 ∧ u.1.2 + 1 < 2 ^ 64 ∧ isOriginal (u.1.2 + 1) = false) :
    filterOutResultsOfForgetting isOriginal (input ++ forgettingStream input) = input := by
  rw [filterOutResultsOfForgetting, ZSet.filter, List.filter_append,
    List.filter_eq_self.2 fun u hu => (h u hu).1, List.filter_eq_nil_iff.2 fun u hu => ?_,
    List.append_nil]
  obtain ⟨v, hv, rfl⟩ := List.mem_map.1 hu
  obtain ⟨w, hw, rfl⟩ := List.mem_map.1 hv
  show ¬isOriginal ((w.1.2 + 1) % 2 ^ 64) = true
  rw [Nat.mod_eq_of_lt (h w hw).2.1, (h w hw).2.2]
  exact Bool.false_ne_true

end

/-- `forget_immediately` shows each update only at its own time, and filtering out its
non-original times gives back the input: on updates at original times `t < 2^64 - 1` whose
`t + 1` is not original, it passes the `inspect`, its content at every time `τ` is the
input's updates at `τ` exactly, and `filter_out_results_of_forgetting` of it is the
input. -/
theorem forget_immediately_recovers {α : Type} [DecidableEq α] (isOriginal : ℕ → Bool)
    (input : Timed α)
    (h : ∀ u ∈ input, isOriginal u.1.2 ∧ u.1.2 < 2 ^ 64 - 1 ∧ isOriginal (u.1.2 + 1) = false) :
    ∃ out, forgetImmediately isOriginal input = .ok out ∧
      (∀ τ, Equiv (accumulatedAt out τ) (atTime input τ)) ∧
      filterOutResultsOfForgetting isOriginal out = input := by
  have h' : ∀ u ∈ input, isOriginal u.1.2 ∧ u.1.2 + 1 < 2 ^ 64 ∧ isOriginal (u.1.2 + 1) = false :=
    fun u hu => ⟨(h u hu).1, by have := (h u hu).2.1; omega, (h u hu).2.2⟩
  refine ⟨_, if_pos (List.all_eq_true.2 fun u hu => (h u hu).1), fun τ a => ?_,
    filterOut_forgetting isOriginal h'⟩
  rw [← accumulatedAt_telescopes τ a input fun u hu => (h' u hu).2.1, ← count_append]
  simp only [accumulatedAt, ZSet.filter, ZSet.map, List.filter_append, List.map_append]

/-- Two insertions at time 0 and a deletion at time 4, original times being the even ones. -/
def sampleHistory : Timed (Key × Value) :=
  [((((7 : Key), .int 1), 0), 1), (((8, .int 2), 0), 1), (((7, .int 1), 4), -1)]

theorem forget_immediately_recovers_sample :
    (∀ u ∈ sampleHistory, (fun t => t % 2 == 0) u.1.2 ∧ u.1.2 < 2 ^ 64 - 1 ∧
      (fun t => t % 2 == 0) (u.1.2 + 1) = false) ∧
    ∃ out, forgetImmediately (fun t => t % 2 == 0) sampleHistory = .ok out ∧
      (∀ τ, Equiv (accumulatedAt out τ) (atTime sampleHistory τ)) ∧
      filterOutResultsOfForgetting (fun t => t % 2 == 0) out = sampleHistory :=
  have h : ∀ u ∈ sampleHistory, (fun t => t % 2 == 0) u.1.2 ∧ u.1.2 < 2 ^ 64 - 1 ∧
      (fun t => t % 2 == 0) (u.1.2 + 1) = false := by decide
  ⟨h, forget_immediately_recovers _ _ h⟩

end Forget
end Pathway
