import Libfsm.Lib.SortedArray
import Mathlib.Data.List.Destutter
import Mathlib.Tactic

/-!
# Destination Buffers

`sort_and_dedup_dst_buf` of `determinise.c` turns a buffer of states into an ascending
buffer without repeats.  It takes one of several paths by the size and the spread of its
input.

- `smallInputSortAndDedup`: up to 255 entries, an insertion sort helped by a first pass
- `sortAndDedupDstBuf`: the choice between that, `qsort`, and a bitset
- `sortAndDedupDstBuf_spec`: whatever the path, the result is the sorted set
- `sortAndDedupCells`, `sortAndDedupCells_spec`: the same for the cells and the bitset
-/

namespace Libfsm

open Lib
open List hiding nil cons

/-! ## §1 Small Inputs -/

/-- The first pass of `small_input_sort_and_dedup`: entries above the last one taken are
taken; the others stay behind. -/
def takeAscending (last : ℕ) : List ℕ → List ℕ × List ℕ
  | [] => ([], [])
  | cur :: rest =>
    if last < cur then
      ((cur :: (takeAscending cur rest).1), (takeAscending cur rest).2)
    else ((takeAscending last rest).1, cur :: (takeAscending last rest).2)

/-- The second pass, for one entry: it goes before the first greater entry. -/
def insertTmp : List ℕ → ℕ → List ℕ
  -- an entry that is greater than all others is not inserted
  | [], _ => []
  | other :: tmp, cur =>
    if cur < other then cur :: other :: tmp
    else if cur = other then other :: tmp
    else other :: insertTmp tmp cur

def smallInputSortAndDedup : List ℕ → List ℕ
  | [] => []
  | first :: rest =>
    (takeAscending first rest).2.foldl insertTmp (first :: (takeAscending first rest).1)

theorem mem_takeAscending (last : ℕ) (l : List ℕ) (s : ℕ) :
    s ∈ l ↔ s ∈ (takeAscending last l).1 ∨ s ∈ (takeAscending last l).2 := by
  induction l generalizing last with
  | nil => simp [takeAscending]
  | cons cur rest ih =>
    unfold takeAscending
    split
    · rw [mem_cons, mem_cons, ih cur, or_assoc]
    · rw [mem_cons, mem_cons, ih last]
      tauto

theorem takeAscending_pairwise (last : ℕ) (l : List ℕ) :
    (last :: (takeAscending last l).1).Pairwise (· < ·) := by
  induction l generalizing last with
  | nil => simp [takeAscending]
  | cons cur rest ih =>
    unfold takeAscending
    split
    · rename_i hlt
      have hcur := ih cur
      rw [pairwise_cons] at hcur ⊢
      refine ⟨?_, ih cur⟩
      intro s hs
      rcases mem_cons.mp hs with rfl | hs
      · exact hlt
      · exact hlt.trans (hcur.1 s hs)
    · exact ih last

/-- What stays behind is below something that was taken. -/
theorem exists_ge_of_mem_takeAscending {last : ℕ} {l : List ℕ} {s : ℕ}
    (hs : s ∈ (takeAscending last l).2) : ∃ t ∈ last :: (takeAscending last l).1, s ≤ t := by
  induction l generalizing last with
  | nil => simp [takeAscending] at hs
  | cons cur rest ih =>
    unfold takeAscending at hs ⊢
    split
    · rename_i hlt
      rw [if_pos hlt] at hs
      obtain ⟨t, ht, hle⟩ := ih hs
      exact ⟨t, mem_cons_of_mem _ ht, hle⟩
    · rename_i hlt
      rw [if_neg hlt] at hs
      rcases mem_cons.mp hs with rfl | hs
      · exact ⟨last, mem_cons_self, not_lt.mp hlt⟩
      · exact ih hs

/-- Inserting an entry that is not above all others. -/
theorem insertTmp_spec {tmp : List ℕ} (htmp : tmp.Pairwise (· < ·)) {cur : ℕ}
    (hcur : ∃ t ∈ tmp, cur ≤ t) :
    (insertTmp tmp cur).Pairwise (· < ·) ∧ ∀ s, s ∈ insertTmp tmp cur ↔ s = cur ∨ s ∈ tmp := by
  induction tmp with
  | nil => simp at hcur
  | cons other tmp ih =>
    obtain ⟨hother, htmp'⟩ := pairwise_cons.mp htmp
    unfold insertTmp
    split
    · rename_i hlt
      refine ⟨pairwise_cons.mpr ⟨?_, htmp⟩, fun s => mem_cons⟩
      intro s hs
      rcases mem_cons.mp hs with rfl | hs
      · exact hlt
      · exact hlt.trans (hother s hs)
    · split
      · rename_i heq
        subst heq
        refine ⟨htmp, fun s => ?_⟩
        simp
      · rename_i hlt hne
        have hgt : other < cur := lt_of_le_of_ne (not_lt.mp hlt) (Ne.symm hne)
        obtain ⟨hsorted, hmem⟩ := ih htmp' (by
          obtain ⟨t, ht, hle⟩ := hcur
          rcases mem_cons.mp ht with rfl | ht
          · exact absurd hle (not_le.mpr hgt)
          · exact ⟨t, ht, hle⟩)
        refine ⟨pairwise_cons.mpr ⟨?_, hsorted⟩, fun s => ?_⟩
        · intro s hs
          rcases (hmem s).mp hs with rfl | hs
          · exact hgt
          · exact hother s hs
        · rw [mem_cons, hmem, mem_cons, or_left_comm]

theorem foldl_insertTmp_spec {tmp l : List ℕ} (htmp : tmp.Pairwise (· < ·))
    (hl : ∀ s ∈ l, ∃ t ∈ tmp, s ≤ t) :
    (l.foldl insertTmp tmp).Pairwise (· < ·) ∧
      ∀ s, s ∈ l.foldl insertTmp tmp ↔ s ∈ l ∨ s ∈ tmp := by
  induction l generalizing tmp with
  | nil => exact ⟨htmp, by simp⟩
  | cons cur l ih =>
    obtain ⟨hsorted, hmem⟩ := insertTmp_spec htmp (hl cur mem_cons_self)
    obtain ⟨hsorted', hmem'⟩ := ih hsorted (by
      intro s hs
      obtain ⟨t, ht, hle⟩ := hl s (mem_cons_of_mem _ hs)
      exact ⟨t, (hmem t).mpr (Or.inr ht), hle⟩)
    refine ⟨hsorted', fun s => ?_⟩
    rw [foldl_cons, hmem', hmem, mem_cons]
    tauto

theorem smallInputSortAndDedup_spec (buf : List ℕ) :
    (smallInputSortAndDedup buf).Pairwise (· < ·) ∧
      ∀ s, s ∈ smallInputSortAndDedup buf ↔ s ∈ buf := by
  cases buf with
  | nil => simp [smallInputSortAndDedup]
  | cons first rest =>
    obtain ⟨hsorted, hmem⟩ := foldl_insertTmp_spec (takeAscending_pairwise first rest)
      fun s hs => exists_ge_of_mem_takeAscending hs
    refine ⟨hsorted, fun s => ?_⟩
    rw [smallInputSortAndDedup, hmem, mem_cons, mem_cons, mem_takeAscending first rest s]
    tauto

/-! ## §2 All Inputs -/

def smallInputLimit : ℕ := 255

def qsortCutoff : ℕ := 81920

/-- The least and the greatest entry, as the scan over the buffer finds them. -/
def bufMinMax (buf : List ℕ) : ℕ × ℕ :=
  (buf.foldl min (2 ^ 32 - 1), buf.foldl max 0)

def u64bitsetWords (count : ℕ) : ℕ := count / 64 + if count % 64 = 0 then 0 else 1

/-- The bitset path: set the bit of each entry, counted from the least, and read the words
back in order. -/
def sortByBitset (buf : List ℕ) (lo hi : ℕ) : List ℕ :=
  ((range (64 * u64bitsetWords (hi - lo + 1))).filter fun i => decide (i + lo ∈ buf)).map
    (· + lo)

def sortAndDedupDstBuf (buf : List ℕ) : List ℕ :=
  if buf.length ≤ 1 then buf
  else if buf.length ≤ smallInputLimit then smallInputSortAndDedup buf
  else if buf.Pairwise (· < ·) then buf
  else if (bufMinMax buf).1 = (bufMinMax buf).2 then [(bufMinMax buf).1]
  else if (bufMinMax buf).2 - (bufMinMax buf).1 > qsortCutoff then sortDedup buf
  else sortByBitset buf (bufMinMax buf).1 (bufMinMax buf).2

theorem foldl_min_le (l : List ℕ) (n : ℕ) :
    l.foldl min n ≤ n ∧ ∀ s ∈ l, l.foldl min n ≤ s := by
  induction l generalizing n with
  | nil => simp
  | cons t l ih =>
    obtain ⟨hle, hall⟩ := ih (min n t)
    refine ⟨hle.trans (min_le_left n t), fun s hs => ?_⟩
    rcases mem_cons.mp hs with rfl | hs
    · exact hle.trans (min_le_right n s)
    · exact hall s hs

theorem bufMinMax_spec {buf : List ℕ} {s : ℕ} (hs : s ∈ buf) :
    (bufMinMax buf).1 ≤ s ∧ s ≤ (bufMinMax buf).2 :=
  ⟨(foldl_min_le buf _).2 s hs, (le_foldl_max id buf _).2 s hs⟩

theorem le_u64bitsetWords (count : ℕ) : count ≤ 64 * u64bitsetWords count := by
  unfold u64bitsetWords
  split <;> omega

theorem sortByBitset_spec {buf : List ℕ} {lo hi : ℕ} (hbuf : ∀ s ∈ buf, lo ≤ s ∧ s ≤ hi) :
    (sortByBitset buf lo hi).Pairwise (· < ·) ∧ ∀ s, s ∈ sortByBitset buf lo hi ↔ s ∈ buf := by
  unfold sortByBitset
  constructor
  · -- a range ascends, and so do its sublists and translates
    rw [pairwise_map]
    exact (pairwise_lt_range.filter _).imp fun h => Nat.add_lt_add_right h lo
  · intro s
    simp only [mem_map, mem_filter, mem_range, decide_eq_true_eq]
    constructor
    · intro ⟨i, ⟨_, hmem⟩, hs⟩
      exact hs ▸ hmem
    · intro hs
      obtain ⟨hlo, hhi⟩ := hbuf s hs
      have hwords := le_u64bitsetWords (hi - lo + 1)
      have hsub : s - lo + lo = s := Nat.sub_add_cancel hlo
      exact ⟨s - lo, ⟨by omega, hsub.symm ▸ hs⟩, hsub⟩

/-- Whatever path is taken, the result is ascending and has the same entries. -/
theorem sortAndDedupDstBuf_spec (buf : List ℕ) :
    (sortAndDedupDstBuf buf).Pairwise (· < ·) ∧
      ∀ s, s ∈ sortAndDedupDstBuf buf ↔ s ∈ buf := by
  unfold sortAndDedupDstBuf
  split
  · rename_i hlen
    refine ⟨?_, fun s => Iff.rfl⟩
    match buf, hlen with
    | [], _ => exact List.Pairwise.nil
    | [s], _ => exact pairwise_singleton _ s
  · split
    · exact smallInputSortAndDedup_spec buf
    · split
      · rename_i hsorted
        exact ⟨hsorted, fun s => Iff.rfl⟩
      · split
        · -- one value only
          have hall : ∀ s ∈ buf, s = (bufMinMax buf).1 := by
            intro s hs
            obtain ⟨hlo, hhi⟩ := bufMinMax_spec hs
            omega
          refine ⟨pairwise_singleton _ _, fun s => ?_⟩
          rw [List.mem_singleton]
          refine ⟨?_, hall s⟩
          intro hs
          obtain ⟨t, ht⟩ := exists_mem_of_length_pos (l := buf) (by omega)
          rwa [hs, ← hall t ht]
        · split
          · exact ⟨sortDedup_pairwise_lt buf, fun s => mem_sortDedup⟩
          · exact sortByBitset_spec fun s hs => bufMinMax_spec hs

/-! ## §3 The Cells And The Bitset -/

/-- `MOVED`, for a cell whose entry is in `tmp`. -/
def movedCell : ℕ := 2 ^ 32 - 1

/-- The first pass on the cells: the entries for `tmp`, and the cells as it leaves them. -/
def moveAscending (last : ℕ) : List ℕ → List ℕ × List ℕ
  | [] => ([], [])
  | cur :: rest =>
    if last < cur then (cur :: (moveAscending cur rest).1, movedCell :: (moveAscending cur rest).2)
    else ((moveAscending last rest).1, cur :: (moveAscending last rest).2)

/-- The second pass, for one cell. -/
def insertCell (tmp : List ℕ) (cur : ℕ) : List ℕ :=
  if cur = movedCell then tmp else insertTmp tmp cur

/-- `small_input_sort_and_dedup` on the cells. -/
def smallInputCells : List ℕ → List ℕ
  | [] => []
  | first :: rest =>
    (moveAscending first rest).2.foldl insertCell (first :: (moveAscending first rest).1)

/-- The `qsort` path, whose loop squashes out every entry that is equal to the one before. -/
def qsortCells (buf : List ℕ) : List ℕ := (buf.insertionSort (· ≤ ·)).destutter (· ≠ ·)

/-- `u64bitset_set` on an array of `words` words, read as one number. -/
def u64bitsetSet (words bitset id : ℕ) : Option ℕ :=
  if id / 64 < words then some (bitset ||| 2 ^ id) else none

/-- The bitset path; the array on the stack has `QSORT_CUTOFF/64 + 1` words. -/
def bitsetCells (buf : List ℕ) (lo hi : ℕ) : Option (List ℕ) :=
  let words := u64bitsetWords (hi - lo + 1)
  if words ≤ qsortCutoff / 64 + 1 then
    (buf.foldlM (fun bitset s => u64bitsetSet words bitset (s - lo)) 0).map fun bitset =>
      ((range (64 * words)).filter bitset.testBit).map (· + lo)
  else none

/-- `sort_and_dedup_dst_buf` on the cells: the first `*used` of them. -/
def sortAndDedupCells (buf : List ℕ) : Option (List ℕ) :=
  if buf.length ≤ 1 then some buf
  else if buf.length ≤ smallInputLimit then some (smallInputCells buf)
  else if buf.IsChain (· < ·) then some buf
  else if (bufMinMax buf).1 = (bufMinMax buf).2 then some [(bufMinMax buf).1]
  else if (bufMinMax buf).2 - (bufMinMax buf).1 > qsortCutoff then some (qsortCells buf)
  else bitsetCells buf (bufMinMax buf).1 (bufMinMax buf).2

/-- The sentinel tells the cells that were moved from the entries that stay behind. -/
theorem moveAscending_eq {l : List ℕ} (hl : ∀ s ∈ l, s ≠ movedCell) (last : ℕ) (tmp : List ℕ) :
    (moveAscending last l).1 = (takeAscending last l).1 ∧
      (moveAscending last l).2.foldl insertCell tmp =
        (takeAscending last l).2.foldl insertTmp tmp := by
  induction l generalizing last tmp with
  | nil => exact ⟨rfl, rfl⟩
  | cons cur rest ih =>
    obtain ⟨hcur, hrest⟩ := forall_mem_cons.mp hl
    unfold moveAscending takeAscending
    split
    · obtain ⟨htmp, hcells⟩ := ih hrest cur tmp
      simpa [htmp, insertCell] using hcells
    · obtain ⟨htmp, hcells⟩ := ih hrest last (insertTmp tmp cur)
      simpa [htmp, insertCell, hcur] using hcells

theorem smallInputCells_eq {buf : List ℕ} (hlt : ∀ s ∈ buf, s < 2 ^ 31) :
    smallInputCells buf = smallInputSortAndDedup buf := by
  cases buf with
  | nil => rfl
  | cons first rest =>
    have hmoved : ∀ s ∈ rest, s ≠ movedCell := fun s hs =>
      ((hlt s (mem_cons_of_mem _ hs)).trans (by decide)).ne
    rw [smallInputCells, (moveAscending_eq hmoved first []).1, (moveAscending_eq hmoved first _).2]
    rfl

theorem qsortCells_eq (buf : List ℕ) : qsortCells buf = sortDedup buf :=
  (pairwise_insertionSort (· ≤ ·) buf).destutter_eq_dedup

/-- Up to the cutoff the array has a bit for every entry. -/
theorem bitsetCells_eq {buf : List ℕ} {lo hi : ℕ} (hbuf : ∀ s ∈ buf, lo ≤ s ∧ s ≤ hi)
    (hcut : hi - lo ≤ qsortCutoff) : bitsetCells buf lo hi = some (sortByBitset buf lo hi) := by
  -- bit `k` stands for the state `lo + k`
  have hset : ∀ (l : List ℕ) (bitset : ℕ), (∀ s ∈ l, lo ≤ s ∧ s ≤ hi) → ∃ bitset',
      l.foldlM (fun bitset s => u64bitsetSet (u64bitsetWords (hi - lo + 1)) bitset (s - lo))
        bitset = some bitset' ∧
      ∀ k, bitset'.testBit k = true ↔ bitset.testBit k = true ∨ k + lo ∈ l := by
    intro l
    induction l with
    | nil => exact fun bitset _ => ⟨bitset, rfl, by simp⟩
    | cons s l ih =>
      intro bitset hl
      obtain ⟨hs, hl⟩ := forall_mem_cons.mp hl
      have hword := le_u64bitsetWords (hi - lo + 1)
      obtain ⟨bitset', hfold, hbits⟩ := ih (bitset ||| 2 ^ (s - lo)) hl
      refine ⟨bitset', ?_, fun k => ?_⟩
      · rw [foldlM_cons, u64bitsetSet, if_pos (by omega)]
        exact hfold
      · have hk : s - lo = k ↔ k + lo = s := by omega
        rw [hbits, Nat.testBit_or, Nat.testBit_two_pow, Bool.or_eq_true, decide_eq_true_eq, hk,
          mem_cons, or_assoc]
  have hfits : u64bitsetWords (hi - lo + 1) ≤ qsortCutoff / 64 + 1 := by
    unfold u64bitsetWords qsortCutoff at *
    split <;> omega
  obtain ⟨bitset, hfold, hbits⟩ := hset buf 0 hbuf
  rw [bitsetCells, if_pos hfits, hfold, Option.map_some, sortByBitset]
  congr 2
  apply filter_congr
  intro k _
  rw [Bool.eq_iff_iff, hbits]
  simp

/-- **The cells** hold the sorted set whatever path is taken, and the bitset is large enough. -/
theorem sortAndDedupCells_spec {buf : List ℕ} (hlt : ∀ s ∈ buf, s < 2 ^ 31) :
    ∃ cells, sortAndDedupCells buf = some cells ∧ cells.Pairwise (· < ·) ∧
      (∀ s, s ∈ cells ↔ s ∈ buf) ∧ cells.length ≤ buf.length := by
  obtain ⟨hsorted, hmem⟩ := sortAndDedupDstBuf_spec buf
  refine ⟨sortAndDedupDstBuf buf, ?_, hsorted, hmem, ?_⟩
  · unfold sortAndDedupCells sortAndDedupDstBuf
    simp only [isChain_iff_pairwise, smallInputCells_eq hlt, qsortCells_eq]
    split_ifs with _ _ _ _ hcut
    all_goals try rfl
    exact bitsetCells_eq (fun s hs => bufMinMax_spec hs) (not_lt.mp hcut)
  · have hnodup : (sortAndDedupDstBuf buf).Nodup := hsorted.imp ne_of_lt
    exact (hnodup.subperm fun s => (hmem s).mp).length_le

theorem sortAndDedupCells_spec_three : (∀ s ∈ [5, 2, 5], s < 2 ^ 31) ∧
    ∃ cells, sortAndDedupCells [5, 2, 5] = some cells ∧ cells.Pairwise (· < ·) ∧
      (∀ s, s ∈ cells ↔ s ∈ [5, 2, 5]) ∧ cells.length ≤ 3 :=
  ⟨by decide, sortAndDedupCells_spec (by decide)⟩

end Libfsm
