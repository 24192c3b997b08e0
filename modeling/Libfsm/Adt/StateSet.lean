import Libfsm.Lib.Folds
import Libfsm.Lib.SortedArray

/-!
# State Sets

The representation of sets of states in `adt/stateset.c`: a NULL pointer for the empty
set, a single state boxed in the pointer, or an allocated array.  Epsilon edges are kept
in such sets.

The array is meant to ascend strictly, but `state_set_compact` and `state_set_replace`
rewrite it in place without sorting, so the order is not part of the type.  Membership
(`StateSet.toList`) is what every operation below is specified by.
-/

namespace Libfsm

open Lib
open List hiding nil cons

variable {s : ℕ} {a : List ℕ} {set : StateSet}

/-! ## §1 Representation -/

/-- `struct state_set *`. -/
inductive StateSet where
  /-- The NULL pointer -/
  | null
  /-- `SINGLETON_ENCODE(s)` -/
  | singleton (s : ℕ)
  /-- The used part `a[0 .. i)` of an allocated set -/
  | array (a : List ℕ)
  deriving DecidableEq, Repr

/-- The states in the order `state_set_next` yields them. -/
def StateSet.toList : StateSet → List ℕ
  | .null => []
  | .singleton s => [s]
  | .array a => a

@[simp] theorem toList_null : StateSet.null.toList = [] := rfl
@[simp] theorem toList_singleton (s : ℕ) : (StateSet.singleton s).toList = [s] := rfl
@[simp] theorem toList_array (a : List ℕ) : (StateSet.array a).toList = a := rfl

instance : Membership ℕ StateSet := ⟨fun set s => s ∈ set.toList⟩

theorem mem_stateSet : s ∈ set ↔ s ∈ set.toList := Iff.rfl

@[simp] theorem notMem_null (s : ℕ) : s ∉ StateSet.null := not_mem_nil

@[simp] theorem mem_singleton {t : ℕ} : s ∈ StateSet.singleton t ↔ s = t :=
  List.mem_singleton

@[simp] theorem mem_array : s ∈ StateSet.array a ↔ s ∈ a := Iff.rfl

instance (s : ℕ) (set : StateSet) : Decidable (s ∈ set) :=
  inferInstanceAs (Decidable (s ∈ set.toList))

/-! ## §2 Reading -/

def stateSetEmpty : StateSet → Bool
  | .null => true
  | .singleton _ => false
  | .array a => a.isEmpty

def stateSetCount (set : StateSet) : ℕ := set.toList.length

/-- `state_set_search`, with its fast path for appending. -/
def stateSetSearch (a : List ℕ) (state : ℕ) : Bool × ℕ :=
  match a.getLast? with
  | none => (false, 0)
  | some last => if last < state then (false, a.length) else search id a state

def stateSetContains (set : StateSet) (state : ℕ) : Bool :=
  match set with
  | .null => false
  | .singleton s => s == state
  | .array a => (stateSetSearch a state).1

theorem stateSetEmpty_iff (set : StateSet) : stateSetEmpty set = true ↔ set.toList = [] := by
  cases set <;> simp [stateSetEmpty]

theorem stateSetEmpty_eq_true_iff (set : StateSet) : stateSetEmpty set = true ↔ ∀ s, s ∉ set := by
  rw [stateSetEmpty_iff, eq_nil_iff_forall_not_mem]
  rfl

theorem stateSetSearch_found {state i : ℕ} (h : stateSetSearch a state = (true, i)) :
    a[i]? = some state := by
  unfold stateSetSearch at h
  split at h
  · simp at h
  · split at h
    · simp at h
    · obtain ⟨x, hx, rfl⟩ := search_found id a state h
      exact hx

/-! ## §3 Adding -/

/-- The array branch of `state_set_add`: leave the array alone if the state is there,
else shift the tail and write the state at its place. -/
def stateSetAddArray (a : List ℕ) (state : ℕ) : List ℕ :=
  match stateSetSearch a state with
  | (true, _) => a
  | (false, i) => a.take i ++ state :: a.drop i

/-- The array branch of `state_set_add_bulk`: append, `qsort`, drop repeats (adjacent,
since the array is sorted). -/
def stateSetAddBulkArray (a new : List ℕ) : List ℕ :=
  sortDedup (a ++ new)

def stateSetAdd (set : StateSet) (state : ℕ) : StateSet :=
  match set with
  | .null => .singleton state
  | .singleton s => .array (stateSetAddBulkArray [] [s, state])
  | .array a => .array (stateSetAddArray a state)

def stateSetAddBulk (set : StateSet) (new : List ℕ) : StateSet :=
  match new with
  | [] => set
  | [s] => stateSetAdd set s
  | _ =>
    match set with
    | .null => .array (stateSetAddBulkArray [] new)
    | .singleton prev => .array (stateSetAddBulkArray (stateSetAddArray [] prev) new)
    | .array a => .array (stateSetAddBulkArray a new)

/-- `state_set_copy`: add the states of `src` to `dst`. -/
def stateSetCopy (dst src : StateSet) : StateSet :=
  match src with
  | .null => dst
  | .singleton s => stateSetAdd dst s
  | .array a => stateSetAddBulk dst a

theorem mem_stateSetAddArray (a : List ℕ) (state s : ℕ) :
    s ∈ stateSetAddArray a state ↔ s = state ∨ s ∈ a := by
  unfold stateSetAddArray
  split
  · rename_i i h
    have hm : state ∈ a := mem_of_getElem? (stateSetSearch_found h)
    constructor
    · exact Or.inr
    · rintro (rfl | h)
      · exact hm
      · exact h
  · rw [mem_append, mem_cons, or_left_comm, ← mem_append, take_append_drop]

@[simp] theorem mem_stateSetAddBulkArray (a new : List ℕ) (s : ℕ) :
    s ∈ stateSetAddBulkArray a new ↔ s ∈ a ∨ s ∈ new := by
  simp [stateSetAddBulkArray]

/-- Adding adds exactly the given state, whatever the representation. -/
@[simp] theorem mem_stateSetAdd (set : StateSet) (state s : ℕ) :
    s ∈ stateSetAdd set state ↔ s = state ∨ s ∈ set := by
  cases set with
  | null => simp [stateSetAdd]
  | singleton t => simp [stateSetAdd, or_comm]
  | array a => simpa [stateSetAdd] using mem_stateSetAddArray a state s

@[simp] theorem mem_stateSetAddBulk (set : StateSet) (new : List ℕ) (s : ℕ) :
    s ∈ stateSetAddBulk set new ↔ s ∈ new ∨ s ∈ set := by
  unfold stateSetAddBulk
  split
  · simp
  · simp
  · cases set with
    | null => simp
    | singleton t => simp [mem_stateSetAddArray, or_comm]
    | array a => simp [or_comm]

@[simp] theorem mem_stateSetCopy (dst src : StateSet) (s : ℕ) :
    s ∈ stateSetCopy dst src ↔ s ∈ src ∨ s ∈ dst := by
  cases src <;> simp [stateSetCopy]

/-! ## §4 Rewriting In Place -/

/-- `state_set_compact`: drop or renumber every state. -/
def stateSetCompact (set : StateSet) (remap : ℕ → Option ℕ) : StateSet :=
  match set with
  | .null => .null
  | .singleton s =>
    match remap s with
    | none => .null
    | some t => .singleton t
  -- an array is rewritten in place and never freed
  | .array a => .array (a.filterMap remap)

def stateSetRebase (set : StateSet) (base : ℕ) : StateSet :=
  match set with
  | .null => .null
  | .singleton s => .singleton (s + base)
  | .array a => .array (a.map (· + base))

theorem toList_stateSetCompact (set : StateSet) (remap : ℕ → Option ℕ) :
    (stateSetCompact set remap).toList = set.toList.filterMap remap := by
  cases set with
  | null => rfl
  | singleton s => cases h : remap s <;> simp [stateSetCompact, h]
  | array a => rfl

@[simp] theorem mem_stateSetCompact (set : StateSet) (remap : ℕ → Option ℕ) (t : ℕ) :
    t ∈ stateSetCompact set remap ↔ ∃ s ∈ set, remap s = some t := by
  simp [mem_stateSet, toList_stateSetCompact]

theorem toList_stateSetRebase (set : StateSet) (base : ℕ) :
    (stateSetRebase set base).toList = set.toList.map (· + base) := by
  cases set <;> rfl

@[simp] theorem mem_stateSetRebase (set : StateSet) (base t : ℕ) :
    t ∈ stateSetRebase set base ↔ ∃ s ∈ set, s + base = t := by
  simp [mem_stateSet, toList_stateSetRebase]

def stateSetReplace (set : StateSet) (old new : ℕ) : StateSet :=
  match set with
  | .null => .null
  | .singleton s => if s ≠ old then .singleton s else .singleton new
  | .array a => .array (a.map fun s => if s = old then new else s)

theorem toList_stateSetReplace (set : StateSet) (old new : ℕ) :
    (stateSetReplace set old new).toList =
      set.toList.map fun s => if s = old then new else s := by
  cases set with
  | null => rfl
  | singleton s => by_cases h : s = old <;> simp [stateSetReplace, h]
  | array a => rfl

/-! ## §5 Removing -/

/-- The array branch of `state_set_remove`: close the gap if the search meets the state. -/
def stateSetRemoveArray (a : List ℕ) (state : ℕ) : List ℕ :=
  match stateSetSearch a state with
  | (true, i) => a.eraseIdx i
  | (false, _) => a

def stateSetRemove (set : StateSet) (state : ℕ) : StateSet :=
  match set with
  | .null => .null
  | .singleton s => if s = state then .null else .singleton s
  -- an array that becomes empty is kept
  | .array a => .array (stateSetRemoveArray a state)

/-! ## §6 Order -/

/-- The elements ascend strictly, as `state_set_search` expects of an array. -/
def StateSet.Sorted (set : StateSet) : Prop := set.toList.Pairwise (· < ·)

instance (set : StateSet) : Decidable set.Sorted :=
  inferInstanceAs (Decidable (set.toList.Pairwise _))

/-- In an ascending array the search finds the state, or the place that splits the array. -/
theorem stateSetSearch_position (hs : a.Pairwise (· < ·)) (state : ℕ) :
    Position id a state (stateSetSearch a state) := by
  unfold stateSetSearch
  split
  · rename_i h
    rw [getLast?_eq_none_iff] at h
    simp [h, Position, Splits]
  · rename_i last h
    split
    · rename_i hlt
      -- the fast path: everything lies at or below the last element
      refine ⟨fun x hx => ?_, by simp⟩
      rw [take_length] at hx
      obtain ⟨ys, rfl⟩ := getLast?_eq_some_iff.mp h
      rcases mem_append.mp hx with hx | hx
      · exact (pairwise_append.mp hs).2.2 x hx last (by simp) |>.trans hlt
      · simpa [mem_singleton.mp hx] using hlt
    · exact search_position hs state

theorem stateSetSearch_fst (hs : a.Pairwise (· < ·)) (state : ℕ) :
    (stateSetSearch a state).1 = true ↔ state ∈ a := by
  have hpos := stateSetSearch_position hs state
  rcases h : stateSetSearch a state with ⟨_ | _, i⟩
  · rw [h] at hpos
    simpa using fun hm => Splits.key_ne hpos hm rfl
  · simpa using mem_of_getElem? (stateSetSearch_found h)

/-- Binary search agrees with the enumeration of a sorted set. -/
theorem StateSet.Sorted.contains_iff (hs : set.Sorted) (state : ℕ) :
    stateSetContains set state = true ↔ state ∈ set := by
  cases set with
  | null => simp [stateSetContains]
  | singleton s => simp [stateSetContains, eq_comm (a := s)]
  | array a => exact stateSetSearch_fst hs state

theorem stateSetAddArray_sorted (hs : a.Pairwise (· < ·)) (state : ℕ) :
    (stateSetAddArray a state).Pairwise (· < ·) := by
  have hpos := stateSetSearch_position hs state
  unfold stateSetAddArray
  split
  · exact hs
  · rename_i i h
    rw [h] at hpos
    have ⟨hlow, hhigh⟩ := hpos
    rw [← take_append_drop i a, pairwise_append] at hs
    refine pairwise_append.mpr ⟨hs.1, pairwise_cons.mpr ⟨hhigh, hs.2.1⟩, ?_⟩
    intro x hx y hy
    rcases mem_cons.mp hy with rfl | hy
    · exact hlow x hx
    · exact hs.2.2 x hx y hy

theorem stateSetAdd_sorted (hs : set.Sorted) (state : ℕ) : (stateSetAdd set state).Sorted := by
  cases set with
  | null => exact pairwise_singleton _ _
  | singleton s => exact sortDedup_pairwise_lt _
  | array a => exact stateSetAddArray_sorted hs state

theorem stateSetAddBulk_sorted (hs : set.Sorted) (new : List ℕ) :
    (stateSetAddBulk set new).Sorted := by
  unfold stateSetAddBulk
  split
  · exact hs
  · exact stateSetAdd_sorted hs _
  · cases set <;> exact sortDedup_pairwise_lt _

theorem stateSetCopy_sorted {dst : StateSet} (hs : dst.Sorted) (src : StateSet) :
    (stateSetCopy dst src).Sorted := by
  cases src with
  | null => exact hs
  | singleton s => exact stateSetAdd_sorted hs s
  | array a => exact stateSetAddBulk_sorted hs a

theorem mem_foldl_stateSetAdd (l : List ℕ) (set : StateSet) (s : ℕ) :
    s ∈ l.foldl stateSetAdd set ↔ s ∈ l ∨ s ∈ set := by
  rw [foldl_or_iff (s ∈ ·) fun _ _ => by rw [mem_stateSetAdd, or_comm], or_comm, exists_eq_right']

/-- A set that is built from an ascending list has that list. -/
theorem toList_foldl_stateSetAdd {l : List ℕ} (hl : l.Pairwise (· < ·)) :
    (l.foldl stateSetAdd .null).toList = l := by
  have hsorted : (l.foldl stateSetAdd .null).Sorted :=
    List.foldlRecOn l _ List.Pairwise.nil fun _ h s _ => stateSetAdd_sorted h s
  apply hsorted.eq_of_mem_iff hl
  intro s
  rw [← mem_stateSet, mem_foldl_stateSetAdd]
  simp

/-- A copy of an ascending set: no array for fewer than two states. -/
theorem stateSetCopy_null (hs : set.Sorted) : stateSetCopy .null set = match set.toList with
      | [] => .null
      | [t] => .singleton t
      | l => .array l := by
  cases set with
  | null => rfl
  | singleton s => rfl
  | array a =>
    match a, hs with
    | [], _ => rfl
    | [s], _ => rfl
    | s :: t :: a, hs =>
      have hsort : sortDedup (s :: t :: a) = s :: t :: a :=
        (sortDedup_pairwise_lt _).eq_of_mem_iff hs fun _ => mem_sortDedup
      exact congrArg StateSet.array hsort

/-- Removal from an ascending array is `List.erase`. -/
theorem stateSetRemoveArray_eq_erase (hs : a.Pairwise (· < ·)) (state : ℕ) :
    stateSetRemoveArray a state = a.erase state := by
  have hmem := stateSetSearch_fst hs state
  unfold stateSetRemoveArray
  split
  · rename_i i h
    obtain ⟨hi, hget⟩ := List.getElem?_eq_some_iff.mp (stateSetSearch_found h)
    have hnodup : a.Nodup := hs.imp ne_of_lt
    exact (List.erase_eq_eraseIdx_of_idxOf (by rw [← hget, hnodup.idxOf_getElem])).symm
  · rename_i i h
    rw [h] at hmem
    rw [erase_of_not_mem fun hm => Bool.false_ne_true (hmem.mpr hm)]

theorem toList_stateSetRemove (hs : set.Sorted) (state : ℕ) :
    (stateSetRemove set state).toList = set.toList.erase state := by
  cases set with
  | null => rfl
  | singleton s => by_cases h : s = state <;> simp [stateSetRemove, h]
  | array a => exact stateSetRemoveArray_eq_erase hs state

theorem stateSetRemove_sorted (hs : set.Sorted) (state : ℕ) :
    (stateSetRemove set state).Sorted := by
  unfold StateSet.Sorted
  rw [toList_stateSetRemove hs]
  exact hs.sublist erase_sublist

theorem mem_stateSetRemove (hs : set.Sorted) (state s : ℕ) :
    s ∈ stateSetRemove set state ↔ s ≠ state ∧ s ∈ set := by
  have hnodup : set.toList.Nodup := List.Pairwise.imp ne_of_lt hs
  rw [mem_stateSet, toList_stateSetRemove hs, hnodup.mem_erase_iff]
  rfl

end Libfsm
