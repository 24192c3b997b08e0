import Mathlib.Data.List.GetD
import Mathlib.Data.List.Nodup
import Mathlib.Logic.Function.Basic
import Mathlib.Tactic

/-!
# Permutation Vectors

The counting sort of `adt/pv.h`, which does not move the values but gives their offsets in
ascending order of value.

- `permutationVector`: the offsets
- `permutationVector_perm`, `permutationVector_sorted`: every offset is given once, in order
- `permutationVector_ranks`: the permutation vector of a permutation vector
-/

namespace Libfsm

open Function
open List hiding count nil cons

/-! ## §1 The Functions -/

/-- The first loop: how often each value occurs. -/
def pvCount (xs : List ℕ) : ℕ → ℕ :=
  xs.foldl (fun counts value => update counts value (counts value + 1)) fun _ => 0

/-- The second loop: the counts become cumulative, up to `maxValue`. -/
def pvAccumulate (counts : ℕ → ℕ) (maxValue : ℕ) : ℕ → ℕ :=
  (range maxValue).foldl
    (fun counts i => update counts (i + 1) (counts (i + 1) + counts i)) counts

/-- The third loop, which sweeps backwards over the values from offset `pos` on: each takes the
last place that is left for its value. -/
def pvSweep : List ℕ → ℕ → (ℕ → ℕ) × List ℕ → (ℕ → ℕ) × List ℕ
  | [], _, st => st
  | value :: rest, pos, st =>
    let (counts, out) := pvSweep rest (pos + 1) st
    let count := counts value - 1
    (update counts value count, out.set count pos)

def permutationVector (maxValue : ℕ) (xs : List ℕ) : List ℕ :=
  (pvSweep xs 0 (pvAccumulate (pvCount xs) maxValue, replicate xs.length 0)).2

/-! ## §2 Counting -/

theorem pvCount_eq (xs : List ℕ) (v : ℕ) : pvCount xs v = xs.count v := by
  have hfold : ∀ (xs : List ℕ) (counts : ℕ → ℕ), xs.foldl (fun counts value =>
      update counts value (counts value + 1)) counts v = counts v + xs.count v := by
    intro xs
    induction xs with
    | nil => exact fun _ => rfl
    | cons x xs ih =>
      intro counts
      rw [foldl_cons, ih]
      by_cases hx : v = x
      · simp [hx, add_comm, add_left_comm]
      · simp [hx, Ne.symm hx]
  rw [pvCount, hfold, zero_add]

theorem countP_lt_add_count (xs : List ℕ) (v : ℕ) :
    xs.countP (· ≤ v) = xs.countP (· < v) + xs.count v := by
  induction xs with
  | nil => rfl
  | cons x xs ih =>
    rw [countP_cons, ih]
    rcases lt_trichotomy x v with h | h | h
    · simp [h, h.le, h.ne, add_right_comm]
    · simp [h, add_assoc]
    · simp [h.ne', Nat.not_le_of_lt h, Nat.not_lt_of_gt h]

/-- The cumulative count of a value is the number of values up to it. -/
theorem pvAccumulate_eq (xs : List ℕ) {maxValue v : ℕ} (hv : v ≤ maxValue) :
    pvAccumulate (pvCount xs) maxValue v = xs.countP (· ≤ v) := by
  -- after `m` rounds the counts are cumulative up to `m` and plain above it
  have hloop : ∀ m v, pvAccumulate (pvCount xs) m v =
      if v ≤ m then xs.countP (· ≤ v) else xs.count v := by
    intro m
    induction m with
    | zero =>
      intro v
      rw [pvAccumulate, range_zero, foldl_nil, pvCount_eq]
      split
      · rename_i hle
        rw [Nat.le_zero.mp hle]
        apply countP_congr
        simp
      · rfl
    | succ m ih =>
      intro v
      have hstep : pvAccumulate (pvCount xs) (m + 1) =
          update (pvAccumulate (pvCount xs) m) (m + 1)
            (pvAccumulate (pvCount xs) m (m + 1) + pvAccumulate (pvCount xs) m m) := by
        rw [pvAccumulate, range_succ, foldl_append]
        rfl
      rw [hstep, update_apply, ih, ih, ih]
      by_cases hvm : v = m + 1
      · subst hvm
        rw [if_pos rfl, if_neg (Nat.not_succ_le_self m), if_pos (le_refl m),
          if_pos (le_refl _), countP_lt_add_count xs (m + 1), add_comm]
        simp only [Nat.lt_add_one_iff]
      · rw [if_neg hvm]
        have hiff : v ≤ m ↔ v ≤ m + 1 := by omega
        simp only [hiff]
  rw [hloop, if_pos hv]

/-! ## §3 Places -/

/-- The place of the value at offset `q`. -/
def pvSlot (xs : List ℕ) (q : ℕ) : ℕ :=
  xs.countP (· ≤ xs.getD q 0) - (xs.drop q).count (xs.getD q 0)

section Slot

variable {xs : List ℕ} {q q' : ℕ}

theorem count_drop_pos (hq : q < xs.length) : 0 < (xs.drop q).count (xs.getD q 0) := by
  rw [count_pos_iff, getD_eq_getElem _ _ hq, drop_eq_getElem_cons hq]
  exact mem_cons_self

/-- The place of a value is after the places of all smaller values. -/
theorem le_pvSlot (xs : List ℕ) (q : ℕ) : xs.countP (· < xs.getD q 0) ≤ pvSlot xs q := by
  have hle : (xs.drop q).count (xs.getD q 0) ≤ xs.count (xs.getD q 0) :=
    (drop_sublist q xs).count_le _
  have heq := countP_lt_add_count xs (xs.getD q 0)
  unfold pvSlot
  omega

/-- The place of a value is before the places of all larger values. -/
theorem pvSlot_lt (hq : q < xs.length) : pvSlot xs q < xs.countP (· ≤ xs.getD q 0) := by
  have hpos := count_drop_pos hq
  have hmem : 0 < xs.countP (· ≤ xs.getD q 0) := by
    rw [countP_pos_iff]
    refine ⟨xs.getD q 0, ?_, by simp⟩
    rw [getD_eq_getElem _ _ hq]
    exact getElem_mem hq
  unfold pvSlot
  omega

theorem pvSlot_lt_length (hq : q < xs.length) : pvSlot xs q < xs.length :=
  (pvSlot_lt hq).trans_le countP_le_length

/-- The order of the offsets: by value, and equal values in the order in which they come. -/
def PvBefore (xs : List ℕ) (q q' : ℕ) : Prop :=
  xs.getD q 0 < xs.getD q' 0 ∨ xs.getD q 0 = xs.getD q' 0 ∧ q < q'

theorem pvBefore_or (xs : List ℕ) (h : q ≠ q') : PvBefore xs q q' ∨ PvBefore xs q' q := by
  unfold PvBefore
  omega

theorem PvBefore.pvSlot_lt (h : PvBefore xs q q') (hq : q < xs.length) :
    pvSlot xs q < pvSlot xs q' := by
  rcases h with h | ⟨h, hlt⟩
  · have hmono : xs.countP (· ≤ xs.getD q 0) ≤ xs.countP (· < xs.getD q' 0) := by
      apply countP_mono_left
      intro x _ hx
      simp only [decide_eq_true_eq] at hx ⊢
      omega
    have h₁ := Libfsm.pvSlot_lt hq
    have h₂ := le_pvSlot xs q'
    omega
  · -- of two equal values the later one takes the later place
    have hmore : (xs.drop q').count (xs.getD q' 0) < (xs.drop q).count (xs.getD q 0) := by
      have hsplit : xs.drop q = xs[q] :: (xs.drop (q + 1)) := drop_eq_getElem_cons hq
      have hsub : (xs.drop q').count (xs.getD q' 0) ≤ (xs.drop (q + 1)).count (xs.getD q' 0) :=
        (drop_sublist_drop_left xs hlt).count_le _
      rw [hsplit, count_cons, ← getD_eq_getElem xs 0 hq, h]
      simp only [BEq.rfl, if_true]
      omega
    have hall : (xs.drop q).count (xs.getD q 0) ≤ xs.countP (· ≤ xs.getD q 0) := by
      have heq := countP_lt_add_count xs (xs.getD q 0)
      have hle : (xs.drop q).count (xs.getD q 0) ≤ xs.count (xs.getD q 0) :=
        (drop_sublist q xs).count_le _
      omega
    unfold pvSlot
    rw [← h] at hmore ⊢
    omega

end Slot

/-! ## §4 The Sweep -/

/-- **The sweep** over the offsets from `pos` on puts each of them in its place. -/
theorem pvSweep_spec {xs : List ℕ} {counts : ℕ → ℕ}
    (hcounts : ∀ v ∈ xs, counts v = xs.countP (· ≤ v)) (rest : List ℕ) (pos : ℕ)
    (hrest : rest = xs.drop pos) :
    let r := pvSweep rest pos (counts, replicate xs.length 0)
    (∀ v ∈ xs, r.1 v = xs.countP (· ≤ v) - rest.count v) ∧ r.2.length = xs.length ∧
      ∀ q, pos ≤ q → q < xs.length → r.2[pvSlot xs q]? = some q := by
  induction rest generalizing pos with
  | nil =>
    refine ⟨fun v hv => by simp [pvSweep, hcounts v hv], by simp [pvSweep], fun q hq hlt => ?_⟩
    have hlen : xs.length ≤ pos := drop_eq_nil_iff.mp hrest.symm
    omega
  | cons value rest ih =>
    have hpos : pos < xs.length := by
      by_contra hge
      rw [drop_eq_nil_of_le (Nat.le_of_not_lt hge)] at hrest
      cases hrest
    rw [drop_eq_getElem_cons hpos, List.cons.injEq] at hrest
    obtain ⟨hvalue, hrest⟩ := hrest
    obtain ⟨hih, hlen, hplaced⟩ := ih (pos + 1) hrest
    have hget : xs.getD pos 0 = value := by rw [getD_eq_getElem _ _ hpos, hvalue]
    have hmem : value ∈ xs := hvalue ▸ getElem_mem hpos
    -- the count was lowered once for each equal value behind `pos`
    have hslot : (pvSweep rest (pos + 1) (counts, replicate xs.length 0)).1 value - 1 =
        pvSlot xs pos := by
      rw [hih value hmem, pvSlot, hget, drop_eq_getElem_cons hpos, ← hvalue, ← hrest,
        count_cons_self]
      omega
    simp only [pvSweep]
    refine ⟨fun v hv => ?_, by rw [length_set, hlen], fun q hq hlt => ?_⟩
    · rw [update_apply, count_cons]
      split
      · rename_i h
        rw [h, hih value hmem]
        simp only [BEq.rfl, if_true]
        omega
      · rename_i h
        rw [hih v hv]
        simp [Ne.symm h]
    · rw [hslot]
      rcases Nat.eq_or_lt_of_le hq with rfl | hq
      · rw [getElem?_set_self (hlen.symm ▸ pvSlot_lt_length hpos)]
      -- the places of later offsets are not written again
      · have hne : pvSlot xs q ≠ pvSlot xs pos := by
          rcases pvBefore_or xs hq.ne' with h | h
          · exact (h.pvSlot_lt hlt).ne
          · exact (h.pvSlot_lt hpos).ne'
        rw [getElem?_set_ne hne.symm]
        exact hplaced q hq hlt

theorem map_getD_range (xs : List ℕ) : (range xs.length).map (xs.getD · 0) = xs :=
  ext_getElem (by simp) fun i _ hi => by simp [getElem?_eq_getElem hi]

section Result

variable {maxValue maxRank : ℕ} {xs : List ℕ} (h : ∀ v ∈ xs, v ≤ maxValue)
include h

/-- **Every offset** is given once. -/
theorem permutationVector_perm : (permutationVector maxValue xs).Perm (range xs.length) := by
  obtain ⟨-, hlen, hplaced⟩ := pvSweep_spec
    (fun v hv => pvAccumulate_eq xs (h v hv)) xs 0 (drop_zero).symm
  have hsub : range xs.length ⊆ permutationVector maxValue xs := by
    intro q hq
    exact mem_of_getElem? (hplaced q (Nat.zero_le q) (mem_range.mp hq))
  have hsubperm : (range xs.length).Subperm (permutationVector maxValue xs) :=
    nodup_range.subperm hsub
  refine (hsubperm.perm_of_length_le ?_).symm
  rw [length_range]
  exact hlen.le

/-- **The offsets** are in ascending order of their values, and the sort is stable. -/
theorem permutationVector_sorted : (permutationVector maxValue xs).Pairwise (PvBefore xs) := by
  obtain ⟨-, -, hplaced⟩ := pvSweep_spec
    (fun v hv => pvAccumulate_eq xs (h v hv)) xs 0 (drop_zero).symm
  have hperm := permutationVector_perm h
  have hnodup := hperm.nodup_iff.mpr nodup_range
  have hslot : ∀ i (hi : i < (permutationVector maxValue xs).length),
      (permutationVector maxValue xs)[i] < xs.length ∧
        pvSlot xs (permutationVector maxValue xs)[i] = i := by
    intro i hi
    have hlt := mem_range.mp (hperm.mem_iff.mp (getElem_mem hi))
    obtain ⟨hlt', heq⟩ := List.getElem?_eq_some_iff.mp (hplaced _ (Nat.zero_le _) hlt)
    exact ⟨hlt, hnodup.getElem_inj_iff.mp heq⟩
  rw [pairwise_iff_getElem]
  intro i j hi hj hij
  refine (pvBefore_or xs (hnodup.getElem_inj_iff.not.mpr hij.ne)).resolve_right fun hji => ?_
  have hlt := hji.pvSlot_lt (hslot j hj).1
  rw [(hslot i hi).2, (hslot j hj).2] at hlt
  exact hlt.asymm hij

/-- **Ranks**: the permutation vector of the permutation vector is its inverse. -/
theorem permutationVector_ranks (hmax : ∀ v ∈ permutationVector maxValue xs, v ≤ maxRank)
    {q i : ℕ} : (permutationVector maxRank (permutationVector maxValue xs))[q]? = some i ↔
      (permutationVector maxValue xs)[i]? = some q := by
  have hperm := permutationVector_perm h
  set pv := permutationVector maxValue xs
  have hperm₂ := permutationVector_perm hmax
  have hsorted := permutationVector_sorted hmax
  set ranks := permutationVector maxRank pv
  -- the values at the ranks are a sorted permutation of the offsets
  have hvalues : ranks.map (pv.getD · 0) = range xs.length := by
    have hpermValues := hperm₂.map (pv.getD · 0)
    rw [map_getD_range] at hpermValues
    refine (hpermValues.trans hperm).eq_of_pairwise (fun _ _ _ _ => le_antisymm)
      (pairwise_map.mpr (hsorted.imp fun hlt => ?_)) pairwise_le_range
    exact hlt.elim le_of_lt fun heq => heq.1.le
  have hpv : ∀ {q i : ℕ}, ranks[q]? = some i → pv[i]? = some q := by
    intro q i hq
    have hi := mem_range.mp (hperm₂.mem_iff.mp (mem_of_getElem? hq))
    have hvalue : (ranks.map (pv.getD · 0))[q]? = some pv[i] := by
      rw [getElem?_map, hq, Option.map_some, getD_eq_getElem _ _ hi]
    obtain ⟨hlt, heq⟩ := List.getElem?_eq_some_iff.mp (hvalues ▸ hvalue)
    rw [getElem?_eq_getElem hi, ← heq, getElem_range]
  refine ⟨hpv, fun hi => ?_⟩
  have hq : q < ranks.length := by
    rw [hperm₂.length_eq, length_range, hperm.length_eq, length_range]
    exact mem_range.mp (hperm.mem_iff.mp (mem_of_getElem? hi))
  rw [getElem?_eq_getElem hq]
  obtain ⟨hlt, heq⟩ := List.getElem?_eq_some_iff.mp hi
  obtain ⟨hlt', heq'⟩ := List.getElem?_eq_some_iff.mp (hpv (getElem?_eq_getElem hq))
  exact congrArg some ((hperm.nodup_iff.mpr nodup_range).getElem_inj_iff.mp (heq'.trans heq.symm))

end Result

example : permutationVector 3 [3, 3, 0, 1, 3, 1, 1, 3, 2, 2] = [2, 3, 5, 6, 8, 9, 0, 1, 4, 7] := by
  decide

end Libfsm
