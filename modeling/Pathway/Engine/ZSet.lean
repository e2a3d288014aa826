import Mathlib.Data.List.Dedup
import Mathlib.Algebra.BigOperators.Ring.List
import Mathlib.Algebra.Order.Ring.Int
import Mathlib.Algebra.Order.BigOperators.Group.List
import Mathlib.Tactic.Ring

/-! Collections at one time. A differential collection is a stream of
`(record, time, diff)` updates, and at a time its content is the Z-set of the updates up to
that time. The operators the engine composes (`map`, `flat_map`, `filter`, `concat`,
`negate`, `join_core`, `reduce`, `distinct`, `consolidate`) compute their output at a time
from their inputs at that time, so each is modelled by what it does to Z-sets, and a
property "at every time" is a property of every input Z-set. Persistence is off:
`maybe_persist` and `filter_out_persisted` return their input. -/
namespace Pathway

/-- The updates `(record, diff)` of a collection up to one time. -/
abbrev ZSet (α : Type) := List (α × ℤ)

namespace ZSet
variable {α β γ κ ν μ : Type}

/-- `∑ d * g a` over the updates `(a, d)`: what a linear operator reads of its input. -/
def wsum (g : α → ℤ) : ZSet α → ℤ
  | [] => 0
  | (a, d) :: z => d * g a + wsum g z

@[simp] theorem wsum_nil (g : α → ℤ) : wsum g [] = 0 := rfl
@[simp] theorem wsum_cons (g : α → ℤ) (a : α) (d : ℤ) (z : ZSet α) :
    wsum g ((a, d) :: z) = d * g a + wsum g z := rfl

@[simp] theorem wsum_append (g : α → ℤ) (z w : ZSet α) :
    wsum g (z ++ w) = wsum g z + wsum g w := by
  induction z with
  | nil => simp
  | cons u z ih => obtain ⟨b, d⟩ := u; simp [ih, add_assoc]

/-- Every record once: a collection built from a list of rows. -/
def ofList (l : List α) : ZSet α := List.map (fun a => (a, 1)) l

/-- `negate`. -/
def negate (z : ZSet α) : ZSet α := List.map (fun u => (u.1, -u.2)) z

/-- `map`. -/
def map (f : α → β) (z : ZSet α) : ZSet β := List.map (fun u => (f u.1, u.2)) z

/-- `flat_map`: every output of a record carries the record's diff. -/
def flatMap (f : α → List β) (z : ZSet α) : ZSet β :=
  List.flatMap z fun u => (f u.1).map fun b => (b, u.2)

/-- `filter`. -/
def filter (p : α → Bool) (z : ZSet α) : ZSet α := List.filter (fun u => p u.1) z

theorem map_eq_flatMap (f : α → β) (z : ZSet α) : map f z = flatMap (fun a => [f a]) z :=
  List.map_eq_flatMap _ _

@[simp] theorem map_ofList (f : α → β) (P : List α) : map f (ofList P) = ofList (P.map f) := by
  simp [map, ofList]

@[simp] theorem flatMap_ofList (f : α → List β) (P : List α) :
    flatMap f (ofList P) = ofList (P.flatMap f) := by
  induction P with
  | nil => rfl
  | cons a P ih => simp [flatMap, ofList] at *; exact ih

theorem filter_ofList (p : α → Bool) (P : List α) : filter p (ofList P) = ofList (P.filter p) := by
  simp [filter, ofList, List.filter_map, Function.comp_def]

@[simp] theorem ofList_nil : ofList ([] : List α) = [] := rfl
@[simp] theorem ofList_append (P Q : List α) : ofList (P ++ Q) = ofList P ++ ofList Q :=
  List.map_append _ _ _

@[simp] theorem wsum_ofList (g : α → ℤ) (l : List α) : wsum g (ofList l) = (l.map g).sum := by
  induction l with
  | nil => rfl
  | cons a l ih => simp [ofList, ih] at *

@[simp] theorem wsum_negate (g : α → ℤ) (z : ZSet α) : wsum g (negate z) = -wsum g z := by
  induction z with
  | nil => rfl
  | cons u z ih => obtain ⟨b, d⟩ := u; simp [negate] at *; rw [ih]; ring

@[simp] theorem wsum_map (g : β → ℤ) (f : α → β) (z : ZSet α) :
    wsum g (map f z) = wsum (fun a => g (f a)) z := by
  induction z with
  | nil => rfl
  | cons u z ih => obtain ⟨b, d⟩ := u; simp [map] at *; rw [ih]

private theorem wsum_map_pair (g : β → ℤ) (l : List β) (d : ℤ) :
    wsum g (List.map (fun b => (b, d)) l) = d * (l.map g).sum := by
  induction l with
  | nil => simp
  | cons b l ih => simp [ih]; ring

@[simp] theorem wsum_flatMap (g : β → ℤ) (f : α → List β) (z : ZSet α) :
    wsum g (flatMap f z) = wsum (fun a => ((f a).map g).sum) z := by
  induction z with
  | nil => rfl
  | cons u z ih =>
    obtain ⟨a, d⟩ := u
    simp only [flatMap, List.flatMap_cons, wsum_append, wsum_cons] at *
    rw [wsum_map_pair, ih]

@[simp] theorem wsum_filter (g : α → ℤ) (p : α → Bool) (z : ZSet α) :
    wsum g (filter p z) = wsum (fun a => if p a then g a else 0) z := by
  induction z with
  | nil => rfl
  | cons u z ih => obtain ⟨b, d⟩ := u; cases h : p b <;> simp [filter, h] at * <;> rw [ih]

private theorem wsum_map_weight (g : α → ℤ) (S : List α) (c : α → ℤ) :
    wsum g (List.map (fun b => (b, c b)) S) = (S.map fun b => c b * g b).sum := by
  induction S with
  | nil => rfl
  | cons b S ih => simp [ih]

private theorem sum_map_filter_of_zero (S : List α) (p : α → Bool) (h : α → ℤ)
    (hz : ∀ a, p a = false → h a = 0) : (S.map h).sum = ((S.filter p).map h).sum := by
  induction S with
  | nil => rfl
  | cons a S ih => cases hp : p a <;> simp [List.filter_cons, hp, hz a, ih]

theorem fst_mem_flatMap {f : α → List β} {z : ZSet α} {u : β × ℤ} (hu : u ∈ flatMap f z) :
    ∃ a ∈ z, u.1 ∈ f a.1 := by
  obtain ⟨a, ha, hu⟩ := List.mem_flatMap.1 hu
  obtain ⟨b, hb, rfl⟩ := List.mem_map.1 hu
  exact ⟨a, ha, hb⟩

theorem flatMap_flatMap (f : α → List β) (g : β → List γ) (z : ZSet α) :
    flatMap g (flatMap f z) = flatMap (fun a => (f a).flatMap g) z := by
  simp only [flatMap, List.flatMap_assoc, List.flatMap_map, List.map_flatMap]

theorem flatMap_ite_singleton (p : α → Prop) [DecidablePred p] (f : α → β) (l : List α) :
    l.flatMap (fun a => if p a then [f a] else []) = (l.filter fun a => p a).map f := by
  induction l with
  | nil => rfl
  | cons a l ih => by_cases ha : p a <;> simp [ha, ih, List.filter_cons]

variable [DecidableEq α] [DecidableEq κ]

/-- The accumulated multiplicity of a record. -/
def count : ZSet α → α → ℤ
  | [], _ => 0
  | (b, d) :: z, a => (if b = a then d else 0) + count z a

/-- Two collections with the same content. -/
def Equiv (z w : ZSet α) : Prop := ∀ a, count z a = count w a

@[simp] theorem count_nil (a : α) : count [] a = 0 := rfl
@[simp] theorem count_cons (b a : α) (d : ℤ) (z : ZSet α) :
    count ((b, d) :: z) a = (if b = a then d else 0) + count z a := rfl
@[simp] theorem count_append (z w : ZSet α) (a : α) :
    count (z ++ w) a = count z a + count w a := by
  induction z with
  | nil => simp
  | cons u z ih => obtain ⟨b, d⟩ := u; simp [ih, add_assoc]
@[simp] theorem count_filter (p : α → Bool) (z : ZSet α) (a : α) :
    count (filter p z) a = if p a then count z a else 0 := by
  induction z with
  | nil => simp [filter]
  | cons u z ih =>
    obtain ⟨b, d⟩ := u
    by_cases h : b = a
    · subst h; cases hp : p b <;> simp_all [filter, List.filter_cons]
    · cases hp : p b <;> simp_all [filter, List.filter_cons]

theorem Equiv.refl (z : ZSet α) : Equiv z z := fun _ => rfl
theorem Equiv.symm {z w : ZSet α} (h : Equiv z w) : Equiv w z := fun a => (h a).symm
theorem Equiv.trans {z w v : ZSet α} (h₁ : Equiv z w) (h₂ : Equiv w v) : Equiv z v :=
  fun a => (h₁ a).trans (h₂ a)

theorem count_eq_zero_of_not_mem {z : ZSet α} {a : α} (h : a ∉ List.map Prod.fst z) :
    count z a = 0 := by
  induction z with
  | nil => rfl
  | cons u z ih =>
    obtain ⟨b, d⟩ := u
    simp only [List.map_cons, List.mem_cons, not_or] at h
    simp [Ne.symm h.1, ih h.2]

/-- A linear functional only reads multiplicities: group the updates by record. -/
theorem wsum_eq_sum {S : List α} (hS : S.Nodup) {z : ZSet α} (hz : ∀ u ∈ z, u.1 ∈ S)
    (g : α → ℤ) : wsum g z = (S.map fun a => count z a * g a).sum := by
  induction z with
  | nil => simp [nsmul_zero]
  | cons u z ih =>
    obtain ⟨b, d⟩ := u
    have hb : b ∈ S := hz _ (List.mem_cons_self _ _)
    have hsplit : (S.map fun a => ((if b = a then d else 0) + count z a) * g a).sum =
        (S.map fun a => if a = b then d * g a else 0).sum +
          (S.map fun a => count z a * g a).sum := by
      rw [← List.sum_map_add]
      congr 1
      refine List.map_congr_left fun a _ => ?_
      by_cases h : b = a
      · subst h; simp [Int.add_mul]
      · simp [h, Ne.symm h, Int.add_mul]
    rw [wsum_cons, ih fun v hv => hz v (List.mem_cons_of_mem _ hv)]
    simp only [count_cons, hsplit, List.sum_map_ite_eq, List.count_eq_one_of_mem hS hb]
    simp [nsmul_zero]

theorem wsum_congr {z w : ZSet α} (h : Equiv z w) (g : α → ℤ) : wsum g z = wsum g w := by
  have hS := List.nodup_dedup (List.map Prod.fst z ++ List.map Prod.fst w)
  rw [wsum_eq_sum hS (fun u hu => by simp [List.mem_dedup]; exact .inl ⟨u.2, hu⟩),
    wsum_eq_sum hS (fun u hu => by simp [List.mem_dedup]; exact .inr ⟨u.2, hu⟩)]
  exact congrArg List.sum (List.map_congr_left fun a _ => by rw [h a])

theorem count_eq_wsum (z : ZSet α) (a : α) :
    count z a = wsum (fun b => if b = a then 1 else 0) z := by
  induction z with
  | nil => rfl
  | cons u z ih => obtain ⟨b, d⟩ := u; by_cases h : b = a <;> simp [h, ih]

/-- The records of non-zero multiplicity, each once. -/
def support (z : ZSet α) : List α := (List.map Prod.fst z).dedup.filter fun a => count z a ≠ 0

theorem nodup_support (z : ZSet α) : (support z).Nodup :=
  (List.nodup_dedup _).filter _

@[simp] theorem mem_support {z : ZSet α} {a : α} : a ∈ support z ↔ count z a ≠ 0 := by
  simp only [support, List.mem_filter, List.mem_dedup, decide_eq_true_eq, and_iff_right_iff_imp]
  exact fun h => by_contra fun hn => h (count_eq_zero_of_not_mem hn)

theorem wsum_eq_sum_support (z : ZSet α) (g : α → ℤ) :
    wsum g z = ((support z).map fun a => count z a * g a).sum := by
  rw [wsum_eq_sum (List.nodup_dedup _) (fun u hu => List.mem_dedup.2 (List.mem_map_of_mem _ hu)),
    support]
  exact sum_map_filter_of_zero _ _ _ fun a ha => by
    simp only [ne_eq, decide_eq_false_iff_not, not_not] at ha
    rw [ha, zero_mul]

/-- `join_core` of two collections arranged by key: every pair of updates with equal keys
gives the logic's outputs, with the product of their diffs. -/
def joinCore (f : κ → ν → μ → List γ) (l : ZSet (κ × ν)) (r : ZSet (κ × μ)) : ZSet γ :=
  List.flatMap l fun u => List.flatMap r fun x =>
    if u.1.1 = x.1.1 then (f u.1.1 u.1.2 x.1.2).map fun c => (c, u.2 * x.2) else []

/-- `distinct`: every record of non-zero multiplicity, once. -/
def distinct (z : ZSet α) : ZSet α := ofList (support z)

/-- `consolidate`: one update per record, with its accumulated diff. -/
def consolidate (z : ZSet α) : ZSet α := List.map (fun a => (a, count z a)) (support z)

private theorem count_map_pair (l : List α) (d : ℤ) (b : α) :
    count (List.map (fun a => (a, d)) l) b = d * l.count b := by
  induction l with
  | nil => simp
  | cons a l ih =>
    simp only [List.map_cons, count_cons, ih, List.count_cons, beq_iff_eq]
    split_ifs <;> push_cast <;> ring

@[simp] theorem count_ofList (l : List α) (a : α) : count (ofList l) a = l.count a := by
  simpa using count_map_pair l 1 a

/-- Lists with the same elements, counted, make the same collection. -/
theorem equiv_ofList_of_perm {P Q : List α} (h : P.Perm Q) : Equiv (ofList P) (ofList Q) := fun a => by
  simp [h.count_eq]

@[simp] theorem count_negate (z : ZSet α) (a : α) : count (negate z) a = -count z a := by
  rw [count_eq_wsum, wsum_negate, ← count_eq_wsum]

@[simp] theorem wsum_joinCore (g : γ → ℤ) (f : κ → ν → μ → List γ) (l : ZSet (κ × ν))
    (r : ZSet (κ × μ)) : wsum g (joinCore f l r) =
      wsum (fun u => wsum (fun x => if u.1 = x.1 then ((f u.1 u.2 x.2).map g).sum else 0) r) l := by
  have inner : ∀ (k : κ) (v : ν) (d : ℤ), wsum g (List.flatMap r fun x =>
      if k = x.1.1 then (f k v x.1.2).map fun c => (c, d * x.2) else []) =
      d * wsum (fun x => if k = x.1 then ((f k v x.2).map g).sum else 0) r := by
    intro k v d
    induction r with
    | nil => simp
    | cons x r ih =>
      obtain ⟨⟨k', w⟩, e⟩ := x
      rcases eq_or_ne k k' with rfl | hk
      · simp [ih, wsum_map_pair]; ring
      · simp [hk, ih]
  induction l with
  | nil => rfl
  | cons u l ih =>
    obtain ⟨⟨k, v⟩, d⟩ := u
    simp only [joinCore, List.flatMap_cons, wsum_append, wsum_cons] at *
    rw [inner, ih]

theorem count_distinct (z : ZSet α) (a : α) :
    count (distinct z) a = if count z a = 0 then 0 else 1 := by
  by_cases h : count z a = 0
  · simp [distinct, h, List.count_eq_zero_of_not_mem]
  · simp [distinct, h, List.count_eq_one_of_mem (nodup_support z) (mem_support.2 h)]

@[simp] theorem wsum_distinct (g : α → ℤ) (z : ZSet α) :
    wsum g (distinct z) = ((support z).map g).sum := wsum_ofList g _

@[simp] theorem count_consolidate (z : ZSet α) (a : α) : count (consolidate z) a = count z a := by
  rw [count_eq_wsum, consolidate, wsum_map_weight, ← wsum_eq_sum_support, ← count_eq_wsum]

theorem equiv_iff_wsum {z w : ZSet α} : Equiv z w ↔ ∀ g : α → ℤ, wsum g z = wsum g w :=
  ⟨fun h g => wsum_congr h g, fun h a => by rw [count_eq_wsum, count_eq_wsum, h]⟩

theorem Equiv.append {z z' w w' : ZSet α} (h : Equiv z z') (h' : Equiv w w') :
    Equiv (z ++ w) (z' ++ w') := fun a => by simp [h a, h' a]

theorem Equiv.negate {z w : ZSet α} (h : Equiv z w) : Equiv (negate z) (negate w) := fun a => by
  simp [h a]

theorem Equiv.map [DecidableEq β] {z w : ZSet α} (h : Equiv z w) (f : α → β) :
    Equiv (map f z) (map f w) :=
  equiv_iff_wsum.2 fun g => by simp [wsum_congr h]

theorem Equiv.flatMap [DecidableEq β] {z w : ZSet α} (h : Equiv z w) (f : α → List β) :
    Equiv (flatMap f z) (flatMap f w) :=
  equiv_iff_wsum.2 fun g => by simp [wsum_congr h]

theorem Equiv.distinct {z w : ZSet α} (h : Equiv z w) : Equiv (distinct z) (distinct w) :=
  fun a => by simp [count_distinct, h a]

theorem Equiv.joinCore [DecidableEq γ] {f : κ → ν → μ → List γ} {l l' : ZSet (κ × ν)}
    {r r' : ZSet (κ × μ)} [DecidableEq ν] [DecidableEq μ] (hl : Equiv l l') (hr : Equiv r r') :
    Equiv (joinCore f l r) (joinCore f l' r') :=
  equiv_iff_wsum.2 fun g => by simp only [wsum_joinCore, wsum_congr hr, wsum_congr hl]

theorem count_map_of_injective [DecidableEq β] {f : α → β} (hf : Function.Injective f)
    (z : ZSet α) (a : α) : count (map f z) (f a) = count z a := by
  rw [count_eq_wsum, wsum_map, count_eq_wsum]
  simp only [hf.eq_iff]

theorem distinct_ofList (P : List α) : Equiv (distinct (ofList P)) (ofList P.dedup) := fun a => by
  simp only [count_distinct, count_ofList, List.count_dedup, Nat.cast_eq_zero]
  by_cases ha : a ∈ P <;> simp [ha, List.count_eq_zero]

theorem joinCore_ofList (f : κ → ν → μ → List γ) (A : List (κ × ν)) (B : List (κ × μ)) :
    joinCore f (ofList A) (ofList B) =
      ofList (A.flatMap fun a => B.flatMap fun b => if a.1 = b.1 then f a.1 a.2 b.2 else []) := by
  simp only [joinCore, ofList, List.flatMap_map, List.map_flatMap]
  congr 1; funext a; congr 1; funext b
  split_ifs <;> simp

/-- Every record occurs at most once. -/
def IsSet (z : ZSet α) : Prop := ∀ a, count z a = 0 ∨ count z a = 1

/-- A collection with the content of a list without repeats holds its elements once. -/
theorem count_of_equiv_ofList {z : ZSet α} {S : List α} (hS : S.Nodup) (h : Equiv z (ofList S))
    (a : α) : count z a = if a ∈ S then 1 else 0 := by
  rw [h a]
  split_ifs with ha
  · rw [count_ofList]; exact_mod_cast List.count_eq_one_of_mem hS ha
  · exact count_eq_zero_of_not_mem (by simpa [ofList] using ha)

theorem isSet_ofList {S : List α} (hS : S.Nodup) : IsSet (ofList S) := fun a => by
  rw [count_of_equiv_ofList hS (Equiv.refl _)]
  split_ifs <;> simp

theorem IsSet.count_eq {z : ZSet α} (h : IsSet z) (a : α) :
    count z a = if a ∈ support z then 1 else 0 := by
  rcases h a with h0 | h1 <;> simp [*]

theorem IsSet.equiv_ofList {z : ZSet α} (h : IsSet z) : Equiv z (ofList (support z)) := fun a => by
  rw [h.count_eq, count_ofList]
  split_ifs with ha
  · simp [List.count_eq_one_of_mem (nodup_support z) ha]
  · simp [List.count_eq_zero_of_not_mem ha]

/-- A list less a part of it is the rest. -/
theorem equiv_ofList_sub {A A' B : List α} (h : A.Perm (A' ++ B)) :
    Equiv (ofList A ++ negate (ofList B)) (ofList A') := fun x => by
  simp [h.count_eq]

/-- Every record has a non-negative multiplicity. -/
def NonNeg (z : ZSet α) : Prop := ∀ a, 0 ≤ count z a

theorem NonNeg.wsum_nonneg {z : ZSet α} (hz : NonNeg z) {g : α → ℤ} (hg : ∀ a, 0 ≤ g a) :
    0 ≤ wsum g z := by
  rw [wsum_eq_sum_support]
  exact List.sum_nonneg fun x hx => by
    obtain ⟨a, -, rfl⟩ := List.mem_map.1 hx
    exact mul_nonneg (hz a) (hg a)

/-- A non-negative functional of such a collection is positive exactly when a record of it
is weighted positively. -/
theorem NonNeg.wsum_pos_iff {z : ZSet α} (hz : NonNeg z) {g : α → ℤ} (hg : ∀ a, 0 ≤ g a) :
    0 < wsum g z ↔ ∃ a, count z a ≠ 0 ∧ 0 < g a := by
  rw [wsum_eq_sum_support]
  constructor
  · intro hpos
    by_contra hno
    push_neg at hno
    refine hpos.ne' (List.sum_eq_zero fun x hx => ?_)
    obtain ⟨a, ha, rfl⟩ := List.mem_map.1 hx
    rw [le_antisymm (hno a (mem_support.1 ha)) (hg a), mul_zero]
  · rintro ⟨a, ha, hga⟩
    refine lt_of_lt_of_le (mul_pos (lt_of_le_of_ne (hz a) (Ne.symm ha)) hga)
      (List.single_le_sum (fun x hx => ?_) _ (List.mem_map_of_mem _ (mem_support.2 ha)))
    obtain ⟨b, -, rfl⟩ := List.mem_map.1 hx
    exact mul_nonneg (hz b) (hg b)

variable [DecidableEq β]

private theorem sum_map_indicator (l : List β) (b : β) :
    (l.map fun c => if c = b then (1 : ℤ) else 0).sum = l.count b := by
  induction l with
  | nil => rfl
  | cons c l ih => by_cases h : c = b <;> simp [h, ih, List.count_cons, add_comm]

omit [DecidableEq α] in
theorem count_flatMap (f : α → List β) (z : ZSet α) (b : β) :
    count (flatMap f z) b = wsum (fun a => ((f a).count b : ℤ)) z := by
  simp only [count_eq_wsum, wsum_flatMap, sum_map_indicator]

theorem nonNeg_flatMap {z : ZSet α} (hz : NonNeg z) (f : α → List β) : NonNeg (flatMap f z) :=
  fun b => count_flatMap f z b ▸ hz.wsum_nonneg fun _ => Int.natCast_nonneg _

/-- A record of a flat map of such a collection is present exactly when a present record
gives it. -/
theorem NonNeg.count_flatMap_ne_zero {z : ZSet α} (hz : NonNeg z) (f : α → List β) (b : β) :
    count (flatMap f z) b ≠ 0 ↔ ∃ a, count z a ≠ 0 ∧ b ∈ f a := by
  have hpos : count (flatMap f z) b ≠ 0 ↔ 0 < count (flatMap f z) b :=
    ⟨fun h => lt_of_le_of_ne (nonNeg_flatMap hz f b) (Ne.symm h), ne_of_gt⟩
  rw [hpos, count_flatMap, hz.wsum_pos_iff fun _ => Int.natCast_nonneg _]
  simp only [Int.natCast_pos, List.count_pos_iff]

end ZSet
end Pathway
