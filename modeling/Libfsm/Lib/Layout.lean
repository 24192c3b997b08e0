import Mathlib.Algebra.Order.BigOperators.Group.List
import Mathlib.Data.List.Forall2
import Mathlib.Tactic

/-!
# Items Of Different Sizes, One After Another

Where the items of a list begin if they are put one after another.

- `offset`: where an item begins
- `offset_add_le`: if items shrink, so do the distances between them
- `drop_offset`: what is found at an offset
- `Relaxation`: the size of an item depends on the distance to another item; rounds of shrinking
  that start with sizes that are large enough keep shrinking until nothing changes
-/

namespace Libfsm.Lib

open List hiding nil cons

variable {α : Type*}

/-- Where item `i` begins, given the sizes of all items. -/
def offset (sizes : List ℕ) (i : ℕ) : ℕ := (sizes.take i).sum

@[simp] theorem offset_zero (sizes : List ℕ) : offset sizes 0 = 0 := rfl

@[simp] theorem offset_nil (i : ℕ) : offset [] i = 0 := by
  rw [offset, take_nil, sum_nil]

@[simp] theorem offset_cons_succ (n : ℕ) (sizes : List ℕ) (i : ℕ) :
    offset (n :: sizes) (i + 1) = n + offset sizes i := by
  rw [offset, take_succ_cons, sum_cons, offset]

theorem offset_succ {sizes : List ℕ} {i n : ℕ} (h : sizes[i]? = some n) :
    offset sizes (i + 1) = offset sizes i + n := by
  rw [offset, take_add_one, h, offset]
  simp

theorem offset_mono (sizes : List ℕ) {i j : ℕ} (h : i ≤ j) : offset sizes i ≤ offset sizes j :=
  (take_sublist_take_left h).sum_le_sum fun _ _ => Nat.zero_le _

theorem offset_le_sum (sizes : List ℕ) (i : ℕ) : offset sizes i ≤ sizes.sum :=
  (take_sublist i sizes).sum_le_sum fun _ _ => Nat.zero_le _

/-- If no item grows, no distance between two items does. -/
theorem offset_add_le {sizes sizes' : List ℕ} (h : Forall₂ (· ≤ ·) sizes' sizes) {i j : ℕ}
    (hij : i ≤ j) : offset sizes' j + offset sizes i ≤ offset sizes j + offset sizes' i := by
  induction h generalizing i j with
  | nil => simp
  | @cons n n' sizes' sizes hn _ ih =>
    cases j with
    | zero =>
      obtain rfl := Nat.le_zero.mp hij
      simp
    | succ j =>
      cases i with
      | zero =>
        have := ih (Nat.zero_le j)
        simp only [offset_zero, offset_cons_succ, add_zero] at this ⊢
        exact Nat.add_le_add hn this
      | succ i =>
        have := ih (Nat.le_of_succ_le_succ hij)
        simp only [offset_cons_succ]
        omega

/-- At the offset of an item the item is found, and the ones after it. -/
theorem drop_offset (items : List (List α)) (i : ℕ) :
    items.flatten.drop (offset (items.map List.length) i) = (items.drop i).flatten := by
  induction items generalizing i with
  | nil => simp
  | cons item items ih =>
    cases i with
    | zero => rfl
    | succ i =>
      rw [map_cons, offset_cons_succ, flatten_cons, drop_append,
        drop_eq_nil_of_le (Nat.le_add_right _ _), nil_append, Nat.add_sub_cancel_left, ih,
        drop_succ_cons]

/-! ## Relaxation -/

/-- Items that refer to other items, with a size that depends on the distance. -/
structure Relaxation where
  /-- The item that an item refers to -/
  target : ℕ → Option ℕ
  /-- The size of an item, for the distance to its target -/
  size : ℕ → ℤ → ℕ
  size_le : ∀ i d d', (0 ≤ d' ∧ d' ≤ d ∨ d ≤ d' ∧ d' ≤ 0) → size i d' ≤ size i d

namespace Relaxation

variable (R : Relaxation) {sizes sizes' : List ℕ}

/-- The distance from an item to its target. -/
def distance (sizes : List ℕ) (i : ℕ) : ℤ :=
  match R.target i with
  | none => 0
  | some j => offset sizes j - offset sizes i

/-- One round: each item gets the size that its distance asks for. -/
def relax (sizes : List ℕ) : List ℕ := sizes.mapIdx fun i _ => R.size i (R.distance sizes i)

@[simp] theorem length_relax (sizes : List ℕ) : (R.relax sizes).length = sizes.length :=
  length_mapIdx

/-- If no item grows, no distance does. -/
theorem size_distance_le (h : Forall₂ (· ≤ ·) sizes' sizes) (i : ℕ) :
    R.size i (R.distance sizes' i) ≤ R.size i (R.distance sizes i) := by
  apply R.size_le
  unfold distance
  cases R.target i with
  | none => exact Or.inl ⟨le_rfl, le_rfl⟩
  | some j =>
    dsimp only
    rcases le_total i j with hij | hij
    · have hd := offset_add_le h hij
      have hm := offset_mono sizes' hij
      omega
    · have hd := offset_add_le h hij
      have hm := offset_mono sizes' hij
      omega

/-- A round keeps the order of sizes. -/
theorem relax_mono (h : Forall₂ (· ≤ ·) sizes' sizes) :
    Forall₂ (· ≤ ·) (R.relax sizes') (R.relax sizes) := by
  rw [List.forall₂_iff_get]
  refine ⟨by rw [length_relax, length_relax, h.length_eq], fun i hi hi' => ?_⟩
  simp only [relax, get_eq_getElem, getElem_mapIdx]
  exact R.size_distance_le h i

/-- Sizes that shrink somewhere and grow nowhere have a smaller sum. -/
theorem sum_lt_of_ne (h : Forall₂ (· ≤ ·) sizes' sizes) (hne : sizes' ≠ sizes) :
    sizes'.sum < sizes.sum := by
  induction h with
  | nil => exact absurd rfl hne
  | @cons n n' l l' hn hl ih =>
    rw [sum_cons, sum_cons]
    by_cases hll : l = l'
    · subst hll
      have : n ≠ n' := fun heq => hne (by rw [heq])
      omega
    · have := ih hll
      omega

end Relaxation

end Libfsm.Lib
