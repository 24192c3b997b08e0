import Mathlib.Data.List.Sort
import Mathlib.Tactic

/-!
# Offset Tables

A list of entries sorted by a numeric key, and a table that gives for each key the offset
after its last entry, so that the entries of a key are the slice between two neighbouring
offsets.  The table is filled in two passes: write the offset at each key that occurs, then
carry offsets over the gaps.

- `offsetTable`: the table
- `slice`: the entries of a key
- `mem_slice`: the slice has exactly those entries
-/

namespace Libfsm.Lib

open List hiding nil cons set

variable {ε : Type*} (key : ε → ℕ)

variable {entries : List ε} {n : ℕ}

/-! ## §1 The Table -/

/-- First pass: the offset after the last entry of each key that occurs. -/
def markOffsets (entries : List ε) (n : ℕ) : List ℕ :=
  entries.zipIdx.foldl (fun offsets e => offsets.set (key e.1) (e.2 + 1)) (replicate n 0)

/-- Second pass, one key: a gap takes the offset of the key before it. -/
def fillGap (offsets : List ℕ) (i : ℕ) : List ℕ :=
  if 0 < i ∧ offsets.getD i 0 = 0 then offsets.set i (offsets.getD (i - 1) 0) else offsets

/-- Second pass over the keys up to `last`. -/
def fillGaps (offsets : List ℕ) (last : ℕ) : List ℕ :=
  (range (last + 1)).foldl fillGap offsets

/-- The offset table for keys below `n`. -/
def offsetTable (entries : List ε) (n : ℕ) : List ℕ :=
  match entries.getLast? with
  | none => markOffsets key entries n
  | some e => fillGaps (markOffsets key entries n) (key e)

/-- The entries of key `k`. -/
def slice (entries : List ε) (offsets : List ℕ) (k : ℕ) : List ε :=
  let base := if k = 0 then 0 else offsets.getD (k - 1) 0
  let limit := offsets.getD k 0
  (entries.drop base).take (limit - base)

/-! ## §2 Counting Entries -/

/-- The number of entries with a key up to `k`. -/
def countUpTo (entries : List ε) (k : ℕ) : ℕ := entries.countP fun e => decide (key e ≤ k)

variable {key}

/-- In a sorted list the entries with a key up to `k` come first. -/
theorem key_getElem_le_iff (hsorted : entries.Pairwise fun a b => key a ≤ key b) (k : ℕ) {i : ℕ}
    (hi : i < entries.length) : key entries[i] ≤ k ↔ i < countUpTo key entries k := by
  induction entries generalizing i with
  | nil => cases hi
  | cons e entries ih =>
    obtain ⟨he, hsorted'⟩ := pairwise_cons.mp hsorted
    unfold countUpTo at ih ⊢
    by_cases hk : key e ≤ k
    · rw [countP_cons_of_pos (by simpa using hk)]
      cases i with
      | zero => simpa using hk
      | succ i =>
        rw [getElem_cons_succ, ih hsorted' (Nat.lt_of_succ_lt_succ hi)]
        exact Nat.succ_lt_succ_iff.symm
    · -- the first key is too large, so all of them are
      have hnone : (e :: entries).countP (fun e => decide (key e ≤ k)) = 0 := by
        rw [countP_eq_zero]
        intro a ha
        rcases mem_cons.mp ha with rfl | ha
        · simpa using hk
        · have := he a ha
          simp only [decide_eq_true_eq]
          omega
      rw [hnone]
      refine iff_of_false ?_ (Nat.not_lt_zero i)
      cases i with
      | zero => exact hk
      | succ i =>
        have := he _ (getElem_mem (Nat.lt_of_succ_lt_succ hi))
        rw [getElem_cons_succ]
        omega

/-- The count grows at a key only if the key occurs. -/
theorem countUpTo_succ_of_forall_ne {k : ℕ} (h : ∀ e ∈ entries, key e ≠ k + 1) :
    countUpTo key entries (k + 1) = countUpTo key entries k := by
  refine countP_congr fun e he => ?_
  have := h e he
  simp only [decide_eq_true_eq]
  omega

theorem countUpTo_zero_of_forall_ne (h : ∀ e ∈ entries, key e ≠ 0) :
    countUpTo key entries 0 = 0 := by
  refine countP_eq_zero.mpr fun e he => ?_
  have := h e he
  simp only [decide_eq_true_eq]
  omega

theorem countUpTo_pos {e : ε} (he : e ∈ entries) : 0 < countUpTo key entries (key e) :=
  countP_pos_iff.mpr ⟨e, he, by simp⟩

/-! ## §3 The Two Passes -/

theorem length_markOffsets (entries : List ε) (n : ℕ) :
    (markOffsets key entries n).length = n := by
  unfold markOffsets
  generalize hl : entries.zipIdx = l
  generalize ho : replicate n 0 = offsets
  have hlen : offsets.length = n := by rw [← ho, length_replicate]
  clear hl ho
  induction l generalizing offsets with
  | nil => exact hlen
  | cons e l ih => exact ih _ (by rw [length_set, hlen])

section

variable (hsorted : entries.Pairwise fun a b => key a ≤ key b)
include hsorted

/-- First pass, in closed form. -/
theorem getD_markOffsets (hn : ∀ e ∈ entries, key e < n) (k : ℕ) :
    (markOffsets key entries n).getD k 0 =
      if ∃ e ∈ entries, key e = k then countUpTo key entries k else 0 := by
  induction entries using List.reverseRecOn with
  | nil =>
    simp only [markOffsets, zipIdx_nil, foldl_nil, not_mem_nil, false_and,
      exists_false, if_false, getD_eq_getElem?_getD, getElem?_replicate]
    split <;> rfl
  | append_singleton entries e ih =>
    obtain ⟨hsorted', -, hlast⟩ := pairwise_append.mp hsorted
    have hlast : ∀ a ∈ entries, key a ≤ key e := fun a ha => hlast a ha e mem_cons_self
    have ih := ih hsorted' fun a ha => hn a (mem_append_left _ ha)
    have hmark : markOffsets key (entries ++ [e]) n =
        (markOffsets key entries n).set (key e) (entries.length + 1) := by
      simp [markOffsets, zipIdx_append]
    have he : key e < n := hn e (mem_append_right _ mem_cons_self)
    rw [hmark, getD_eq_getElem?_getD]
    by_cases hk : key e = k
    · -- the last entry has this key: everything counts
      subst hk
      have hall : countUpTo key (entries ++ [e]) (key e) = entries.length + 1 := by
        unfold countUpTo
        rw [countP_eq_length.mpr]
        · simp
        · intro a ha
          rcases mem_append.mp ha with ha | ha
          · simpa using hlast a ha
          · rw [List.mem_singleton.mp ha]
            simp
      rw [getElem?_set_self (by rw [length_markOffsets]; exact he), Option.getD_some,
        if_pos ⟨e, mem_append_right _ mem_cons_self, rfl⟩, hall]
    · rw [getElem?_set_ne hk, ← getD_eq_getElem?_getD, ih]
      have hiff : (∃ a ∈ entries ++ [e], key a = k) ↔ ∃ a ∈ entries, key a = k := by
        simp [hk]
      simp only [hiff]
      split
      · rename_i h
        obtain ⟨a, ha, rfl⟩ := h
        have hlt : ¬ key e ≤ key a := by
          have := hlast a ha
          omega
        unfold countUpTo
        simp [hlt]
      · rfl

/-- Second pass, over the first `m` keys. -/
theorem getD_foldl_fillGap
    (hn : ∀ e ∈ entries, key e < n) {m : ℕ} (hm : m ≤ n) :
    let offsets := (range m).foldl fillGap (markOffsets key entries n)
    offsets.length = n ∧ ∀ k, offsets.getD k 0 =
      if k < m then countUpTo key entries k else (markOffsets key entries n).getD k 0 := by
  induction m with
  | zero => exact ⟨length_markOffsets entries n, fun k => rfl⟩
  | succ m ih =>
    obtain ⟨hlen, hget⟩ := ih (Nat.le_of_succ_le hm)
    rw [range_succ, foldl_append, foldl_cons, foldl_nil]
    set offsets := (range m).foldl fillGap (markOffsets key entries n)
    have hm_get : offsets.getD m 0 =
        if ∃ e ∈ entries, key e = m then countUpTo key entries m else 0 := by
      rw [hget, if_neg (lt_irrefl m), getD_markOffsets hsorted hn]
    have hother : ∀ k ≠ m, (if k < m then countUpTo key entries k
        else (markOffsets key entries n).getD k 0) =
        if k < m + 1 then countUpTo key entries k else (markOffsets key entries n).getD k 0 := by
      intro k hk
      have hiff : k < m + 1 ↔ k < m := by omega
      simp only [hiff]
    unfold fillGap
    split
    · rename_i hgap
      obtain ⟨hpos, hzero⟩ := hgap
      -- the key does not occur, so its count is that of the key before
      have hno : ∀ e ∈ entries, key e ≠ m := by
        intro e he hem
        rw [hm_get, if_pos ⟨e, he, hem⟩, ← hem] at hzero
        exact absurd hzero (countUpTo_pos he).ne'
      obtain ⟨p, rfl⟩ := Nat.exists_eq_succ_of_ne_zero hpos.ne'
      refine ⟨by rw [length_set, hlen], fun k => ?_⟩
      rw [getD_eq_getElem?_getD]
      by_cases hk : k = p + 1
      · have hprev : offsets.getD p 0 = countUpTo key entries p := by
          rw [hget, if_pos (Nat.lt_succ_self p)]
        subst hk
        rw [getElem?_set_self (by omega), Option.getD_some, Nat.succ_sub_one,
          if_pos (Nat.lt_succ_self _), hprev, countUpTo_succ_of_forall_ne hno]
      · rw [getElem?_set_ne (Ne.symm hk), ← getD_eq_getElem?_getD, hget]
        exact hother k hk
    · rename_i hgap
      refine ⟨hlen, fun k => ?_⟩
      by_cases hk : k = m
      · subst hk
        rw [if_pos (Nat.lt_succ_self k), hm_get]
        split
        · rfl
        · rename_i hno
          have hzero : k = 0 := by
            by_contra hne
            exact hgap ⟨pos_of_ne_zero hne, by rw [hm_get, if_neg hno]⟩
          subst hzero
          exact (countUpTo_zero_of_forall_ne fun e he h0 => hno ⟨e, he, h0⟩).symm
      · rw [hget]
        exact hother k hk

theorem key_le_last {last : ε}
    (hlast : entries.getLast? = some last) : ∀ e ∈ entries, key e ≤ key last := by
  intro e he
  obtain ⟨init, rfl⟩ : ∃ init, entries = init ++ [last] :=
    ⟨_, (dropLast_append_getLast? last hlast).symm⟩
  rcases mem_append.mp he with he | he
  · exact (pairwise_append.mp hsorted).2.2 e he last mem_cons_self
  · rw [List.mem_singleton.mp he]

/-- The table, in closed form: counts up to the largest key, and 0 after it. -/
theorem getD_offsetTable
    (hn : ∀ e ∈ entries, key e < n) {last : ε} (hlast : entries.getLast? = some last) (k : ℕ) :
    (offsetTable key entries n).getD k 0 =
      if k ≤ key last then countUpTo key entries k else 0 := by
  have hmem : last ∈ entries := mem_of_getLast? hlast
  have htable := (getD_foldl_fillGap hsorted hn (Nat.succ_le_of_lt (hn last hmem))).2 k
  rw [offsetTable, hlast]
  show ((range (key last + 1)).foldl fillGap (markOffsets key entries n)).getD k 0 = _
  rw [htable, getD_markOffsets hsorted hn]
  by_cases hk : k ≤ key last
  · rw [if_pos (Nat.lt_succ_of_le hk), if_pos hk]
  · rw [if_neg (by omega), if_neg hk, if_neg]
    rintro ⟨e, he, rfl⟩
    exact hk (key_le_last hsorted hlast e he)

end

/-! ## §4 Slices -/

private theorem mem_take_drop {l : List ε} {base limit : ℕ} {e : ε} :
    e ∈ (l.drop base).take (limit - base) ↔
      ∃ i, ∃ hi : i < l.length, (base ≤ i ∧ i < limit) ∧ l[i] = e := by
  rw [mem_iff_getElem?]
  constructor
  · intro ⟨j, hj⟩
    rw [getElem?_take] at hj
    by_cases hlt : j < limit - base
    · rw [if_pos hlt, getElem?_drop] at hj
      obtain ⟨hi, heq⟩ := List.getElem?_eq_some_iff.mp hj
      exact ⟨_, hi, ⟨Nat.le_add_right _ _, by omega⟩, heq⟩
    · rw [if_neg hlt] at hj
      cases hj
  · intro ⟨i, hi, ⟨hbase, hlimit⟩, heq⟩
    obtain ⟨j, rfl⟩ := Nat.exists_eq_add_of_le hbase
    refine ⟨j, ?_⟩
    rw [getElem?_take_of_lt (by omega), getElem?_drop, getElem?_eq_getElem hi, heq]

/-- **The slice of a key** has exactly the entries with that key. -/
theorem mem_slice (hsorted : entries.Pairwise fun a b => key a ≤ key b)
    (hn : ∀ e ∈ entries, key e < n) (k : ℕ) (e : ε) :
    e ∈ slice entries (offsetTable key entries n) k ↔ e ∈ entries ∧ key e = k := by
  cases hlast : entries.getLast? with
  | none =>
    rw [getLast?_eq_none_iff.mp hlast]
    simp [slice]
  | some last =>
    have hget := getD_offsetTable hsorted hn hlast
    -- an index lies between the two offsets exactly when its entry has the key
    have hkey : ∀ i (hi : i < entries.length),
        ((if k = 0 then 0 else (offsetTable key entries n).getD (k - 1) 0) ≤ i ∧
          i < (offsetTable key entries n).getD k 0) ↔ key entries[i] = k := by
      intro i hi
      have hle := key_le_last hsorted hlast _ (getElem_mem hi)
      have hat : i < (offsetTable key entries n).getD k 0 ↔
          key entries[i] ≤ k ∧ k ≤ key last := by
        rw [hget, key_getElem_le_iff hsorted k hi]
        split <;> simp_all
      cases k with
      | zero =>
        rw [if_pos rfl]
        omega
      | succ k =>
        rw [if_neg (Nat.succ_ne_zero k), Nat.succ_sub_one, hget]
        have hprev := key_getElem_le_iff hsorted k hi
        split <;> omega
    unfold slice
    rw [mem_take_drop]
    constructor
    · intro ⟨i, hi, hbetween, heq⟩
      rw [← heq]
      exact ⟨getElem_mem hi, (hkey i hi).mp hbetween⟩
    · intro ⟨he, hek⟩
      obtain ⟨i, hi, rfl⟩ := mem_iff_getElem.mp he
      exact ⟨i, hi, (hkey i hi).mpr hek, rfl⟩

end Libfsm.Lib
