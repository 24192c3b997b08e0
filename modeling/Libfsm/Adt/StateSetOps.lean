import Mathlib.Data.Finset.Sort
import Mathlib.Data.Finset.Option
import Libfsm.Adt.StateSet
import Libfsm.Lib.Refinement

/-!
# State Sets Under Their Operations

Every sequence of operations on a `struct state_set *`, against the finite set it stands for.

The operations come in two kinds.  Adding and removing go through the search or through a
sort, and keep a sorted set sorted.  Replacing, rebasing and compacting rewrite the elements
one by one where they stand: the result is the image of the set, but it is sorted only if the
renaming was strictly increasing on the elements it keeps.  Compacting a boxed state moreover
asserts that its number does not grow; for an array nothing of the kind is asserted.

- `StateSetOp`: the operations, `StateSetOp.apply` what the code does, `none` if an assertion
  fails, and `StateSetOp.effect` what it means on a finite set
- `StateSet.Refines`: the representation is sorted, and reads as the finite set
- `StateSetOp.refines_apply_iff`: one operation
- `stateSetRun_refines_iff`: a whole run from NULL
-/

namespace Libfsm

open Lib

variable {set : StateSet} {S : Finset ℕ}

/-! ## §1 Operations -/

/-- `state_set_rebase` with the addition of `fsm_state_t`, which wraps around. -/
def stateSetRebaseWrapping (set : StateSet) (base : ℕ) : StateSet :=
  match set with
  | .null => .null
  | .singleton s => .singleton ((s + base) % 2 ^ 32)
  | .array a => .array (a.map fun s => (s + base) % 2 ^ 32)

theorem toList_stateSetRebaseWrapping (set : StateSet) (base : ℕ) :
    (stateSetRebaseWrapping set base).toList =
      set.toList.map fun s => (s + base) % 2 ^ 32 := by
  cases set <;> rfl

/-- The operations that change a set. -/
inductive StateSetOp where
  | add (state : ℕ)
  | addBulk (a : List ℕ)
  | copy (src : StateSet)
  | remove (state : ℕ)
  | replace (old new : ℕ)
  | rebase (base : ℕ)
  | compact (remap : ℕ → Option ℕ)

namespace StateSetOp

/-- What the operation leaves behind. -/
def update (set : StateSet) : StateSetOp → StateSet
  | .add state => stateSetAdd set state
  | .addBulk a => stateSetAddBulk set a
  | .copy src => stateSetCopy set src
  | .remove state => stateSetRemove set state
  | .replace old new => stateSetReplace set old new
  | .rebase base => stateSetRebaseWrapping set base
  | .compact remap => stateSetCompact set remap

/-- The assertion on the way: `assert(new_id <= s)` in the branch of `state_set_compact` for a
boxed state.  Those of `state_set_add` and `state_set_remove`, that the state is found or is not
found afterwards, cannot fail on a sorted array. -/
def asserts (set : StateSet) : StateSetOp → Bool
  | .compact remap =>
    match set with
    | .singleton s => (remap s).all (· ≤ s)
    | _ => true
  | _ => true

/-- The operation on the representation. -/
def apply (set : StateSet) (op : StateSetOp) : Option StateSet :=
  if op.asserts set then some (op.update set) else none

/-- What becomes of an element under an operation that rewrites in place.  The other operations
leave the elements they keep as they are. -/
def rename : StateSetOp → ℕ → Option ℕ
  | .replace old new, s => some (if s = old then new else s)
  | .rebase base, s => some ((s + base) % 2 ^ 32)
  | .compact remap, s => remap s
  | _, s => some s

/-- The members of `S` renamed, without those that have no new name. -/
def image (S : Finset ℕ) (rename : ℕ → Option ℕ) : Finset ℕ :=
  S.biUnion fun s => (rename s).toFinset

/-- The operation on finite sets. -/
def effect (S : Finset ℕ) : StateSetOp → Finset ℕ
  | .add state => insert state S
  | .addBulk a => a.toFinset ∪ S
  | .copy src => src.toList.toFinset ∪ S
  | .remove state => S.erase state
  | .replace old new => image S (rename (.replace old new))
  | .rebase base => image S (rename (.rebase base))
  | .compact remap => image S (rename (.compact remap))

/-- The operation keeps the order of the elements it does not drop. -/
def Increasing (set : StateSet) (op : StateSetOp) : Prop :=
  ∀ s ∈ set, ∀ t ∈ set, s < t →
    ∀ s' t', op.rename s = some s' → op.rename t = some t' → s' < t'

theorem mem_image {rename : ℕ → Option ℕ} {t : ℕ} :
    t ∈ image S rename ↔ ∃ s ∈ S, rename s = some t := by
  simp [image]

end StateSetOp

/-! ## §2 What A Set Stands For -/

/-- The set `S`, as every reader of the representation sees it. -/
structure StateSet.Refines (set : StateSet) (S : Finset ℕ) : Prop where
  sorted : set.Sorted
  /-- `state_set_next` enumerates the members -/
  enumerates : ∀ s, s ∈ set.toList ↔ s ∈ S
  contains : ∀ s, stateSetContains set s = true ↔ s ∈ S
  count : stateSetCount set = S.card

/-- Only the order and the members matter: the search and the count follow. -/
theorem StateSet.refines_iff : set.Refines S ↔ set.Sorted ∧ ∀ s, s ∈ set ↔ s ∈ S := by
  constructor
  · exact fun h => ⟨h.sorted, h.enumerates⟩
  · intro ⟨hs, hm⟩
    have hnodup : set.toList.Nodup := List.Pairwise.imp ne_of_lt hs
    have heq : set.toList.toFinset = S := by
      ext s
      rw [List.mem_toFinset]
      exact hm s
    exact ⟨hs, hm, fun s => (hs.contains_iff s).trans (hm s),
      by rw [← heq, List.toFinset_card_of_nodup hnodup]; rfl⟩

/-- A renaming of a sorted list is sorted exactly if it keeps the order. -/
theorem pairwise_filterMap_iff {a : List ℕ} (ha : a.Pairwise (· < ·)) (rename : ℕ → Option ℕ) :
    (a.filterMap rename).Pairwise (· < ·) ↔
      ∀ s ∈ a, ∀ t ∈ a, s < t → ∀ s' t', rename s = some s' → rename t = some t' → s' < t' := by
  rw [List.pairwise_filterMap]
  constructor
  · intro h s hs t ht hlt s' t' hs' ht'
    -- the two stand in the list in the order of their values
    obtain ⟨i, hi, rfl⟩ := List.mem_iff_getElem.mp hs
    obtain ⟨j, hj, rfl⟩ := List.mem_iff_getElem.mp ht
    have hij : i < j := by
      rcases lt_trichotomy i j with hij | rfl | hji
      · exact hij
      · exact absurd hlt (lt_irrefl _)
      · exact absurd hlt (List.pairwise_iff_getElem.mp ha j i hj hi hji).asymm
    exact List.pairwise_iff_getElem.mp h i j hi hj hij s' hs' t' ht'
  · intro h
    exact List.Pairwise.imp_of_mem
      (fun hs ht hlt s' hs' t' ht' => h _ hs _ ht hlt s' t' hs' ht') ha

namespace StateSetOp

/-! ## §3 One Operation -/

/-- An operation that rewrites in place yields the image, sorted exactly if it keeps the order. -/
theorem refines_image_iff {set' : StateSet} (h : set.Refines S) {rename : ℕ → Option ℕ}
    (hset' : set'.toList = set.toList.filterMap rename) :
    set'.Refines (image S rename) ↔
      ∀ s ∈ set, ∀ t ∈ set, s < t →
        ∀ s' t', rename s = some s' → rename t = some t' → s' < t' := by
  have hmem : ∀ t, t ∈ set' ↔ t ∈ image S rename := by
    intro t
    rw [mem_stateSet, hset', List.mem_filterMap, mem_image]
    simp only [h.enumerates]
  have hsorted : set'.Sorted ↔ (set.toList.filterMap rename).Pairwise (· < ·) := by
    rw [← hset']
    exact Iff.rfl
  rw [StateSet.refines_iff, and_iff_left hmem, hsorted]
  exact pairwise_filterMap_iff h.sorted rename

/-- An operation that leaves its elements alone keeps their order. -/
theorem increasing_of_rename_eq {op : StateSetOp} (h : op.rename = some) (set : StateSet) :
    op.Increasing set := by
  intro s _ t _ hlt s' t' hs' ht'
  rw [h] at hs' ht'
  simp only [Option.some.injEq] at hs' ht'
  exact hs' ▸ ht' ▸ hlt

/-- What an operation leaves behind stands for its effect exactly if it keeps the order of the
elements it does not drop. -/
theorem refines_update_iff (h : set.Refines S) (op : StateSetOp) :
    (op.update set).Refines (op.effect S) ↔ op.Increasing set := by
  cases op with
  | add state =>
    refine iff_of_true ?_ (increasing_of_rename_eq rfl set)
    refine StateSet.refines_iff.mpr ⟨stateSetAdd_sorted h.sorted state, fun s => ?_⟩
    rw [update, effect, mem_stateSetAdd, Finset.mem_insert, ← h.enumerates]
    rfl
  | addBulk a =>
    refine iff_of_true ?_ (increasing_of_rename_eq rfl set)
    refine StateSet.refines_iff.mpr ⟨stateSetAddBulk_sorted h.sorted a, fun s => ?_⟩
    rw [update, effect, mem_stateSetAddBulk, Finset.mem_union, ← h.enumerates, List.mem_toFinset]
    rfl
  | copy src =>
    refine iff_of_true ?_ (increasing_of_rename_eq rfl set)
    refine StateSet.refines_iff.mpr ⟨stateSetCopy_sorted h.sorted src, fun s => ?_⟩
    rw [update, effect, mem_stateSetCopy, Finset.mem_union, ← h.enumerates, List.mem_toFinset]
    rfl
  | remove state =>
    refine iff_of_true ?_ (increasing_of_rename_eq rfl set)
    refine StateSet.refines_iff.mpr ⟨stateSetRemove_sorted h.sorted state, fun s => ?_⟩
    rw [update, effect, mem_stateSetRemove h.sorted, Finset.mem_erase, ← h.enumerates]
    rfl
  -- the last three rename the elements in place and do not sort again
  | replace old new =>
    apply refines_image_iff h
    rw [update, toList_stateSetReplace, ← List.filterMap_eq_map]
    rfl
  | rebase base =>
    apply refines_image_iff h
    rw [update, toList_stateSetRebaseWrapping, ← List.filterMap_eq_map]
    rfl
  | compact remap => exact refines_image_iff h (toList_stateSetCompact set remap)

/-- **One operation** on a set that stands for `S` gets through its assertion and yields a set
that stands for the effect on `S` exactly if it keeps the order of the elements it does not drop,
and the number of a boxed state does not grow. -/
theorem refines_apply_iff (h : set.Refines S) (op : StateSetOp) :
    (∃ set', op.apply set = some set' ∧ set'.Refines (op.effect S)) ↔
      op.Increasing set ∧ op.asserts set = true := by
  rw [← refines_update_iff h op, apply]
  by_cases hop : op.asserts set = true <;> simp [hop]

end StateSetOp

/-! ## §4 Runs -/

/-- The state set after some operations, from NULL, if no assertion failed on the way. -/
def stateSetRun (ops : List StateSetOp) : Option StateSet :=
  ops.foldlM StateSetOp.apply .null

/-- The finite set after some operations, from the empty one. -/
def stateSetRunEffect (ops : List StateSetOp) : Finset ℕ :=
  ops.foldl StateSetOp.effect ∅

theorem null_refines : StateSet.null.Refines ∅ :=
  StateSet.refines_iff.mpr ⟨List.Pairwise.nil, by simp⟩

/-- **Runs.**  From NULL, a state set stands for the finite set throughout a run, and no assertion
fails, exactly if every operation of the run keeps the order of the elements that are there and
that it keeps, and no compaction makes the number of a boxed state grow.  Adding, copying and
removing always meet this. -/
theorem stateSetRun_refines_iff (ops : List StateSetOp) :
    (∀ pre, pre <+: ops →
        ∃ set, stateSetRun pre = some set ∧ set.Refines (stateSetRunEffect pre)) ↔
      ∀ pre op, pre ++ [op] <+: ops → ∀ set, stateSetRun pre = some set →
        op.Increasing set ∧ op.asserts set = true := by
  have hstep : ∀ {set : StateSet} {S : Finset ℕ} (op : StateSetOp), set.Refines S →
      ((∃ set', op.apply set = some set' ∧ set'.Refines (op.effect S)) ↔
        op.Increasing set ∧ op.asserts set = true) :=
    fun op h => StateSetOp.refines_apply_iff h op
  exact forall_prefix_foldlM_iff hstep null_refines ops

/-- Replacing 1 by 3 in {1, 2} leaves the array 3, 2, in which 3 is not found: adding it once
more makes it an element twice. -/
theorem stateSetRun_replace_unsorted :
    stateSetRun [.addBulk [1, 2], .replace 1 3] = some (.array [3, 2]) ∧
      stateSetContains (.array [3, 2]) 3 = false ∧
      stateSetRun [.addBulk [1, 2], .replace 1 3, .add 3] = some (.array [3, 2, 3]) ∧
      ¬ (StateSet.array [3, 2]).Refines (stateSetRunEffect [.addBulk [1, 2], .replace 1 3]) := by
  refine ⟨by decide, by decide, by decide, fun h => ?_⟩
  have hsorted := h.sorted
  exact absurd hsorted (by decide)

end Libfsm
