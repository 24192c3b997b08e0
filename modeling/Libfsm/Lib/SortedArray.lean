import Mathlib.Data.List.Sort
import Mathlib.Order.Basic
import Mathlib.Tactic

/-!
# Sorted Arrays With Binary Search

A small library of arrays kept in strictly ascending order of a key and searched by
halving.

- `searchLoop`, `search`: the halving loop, on any list
- `Position`: what a search result means (an entry with the key, or the place for it)
- `upsertAt`: update the entry found, or insert a new one at its place
- `insertSorted`, `sortDedup`: the two ways a list of plain values is kept sorted
- `SortedArray`: a list together with the proof that its keys ascend strictly
- `doubleUntil`: the capacity of an array that has to grow

The lemmas come in two strengths.  What only needs the *result* of a search
(`search_found`) holds for every list; what needs its *absence* (`search_position`)
holds for ascending ones.
-/

namespace Libfsm.Lib

open List

variable {fuel i : ℕ} {p : Bool × ℕ}

universe u v

variable {α : Type u} {κ : Type v} [LinearOrder κ]

/-! ## §1 Halving Search -/

/-- The halving loop between `lo` and `hi`.  The flag says whether the key was met; the
number is its index, or the index at which it would be inserted. -/
def searchLoop (key : α → κ) (xs : List α) (k : κ) : ℕ → ℕ → ℕ → Bool × ℕ
  | 0, lo, _ => (false, lo)
  | fuel + 1, lo, hi =>
    if lo < hi then
      let mid := lo + (hi - lo) / 2
      match xs[mid]? with
      | none => (false, lo)
      | some x =>
        if k = key x then (true, mid)
        else if key x < k then searchLoop key xs k fuel (mid + 1) hi
        else searchLoop key xs k fuel lo mid
    else (false, lo)

/-- Halving search over the whole list. -/
def search (key : α → κ) (xs : List α) (k : κ) : Bool × ℕ :=
  searchLoop key xs k xs.length 0 xs.length

/-- Keys strictly ascend along the list. -/
def Ascending (key : α → κ) (xs : List α) : Prop :=
  xs.Pairwise (fun x y => key x < key y)

/-- Everything before index `i` lies below `k`, everything from `i` on lies above. -/
def Splits (key : α → κ) (xs : List α) (k : κ) (i : ℕ) : Prop :=
  (∀ x ∈ xs.take i, key x < k) ∧ (∀ x ∈ xs.drop i, k < key x)

/-- The meaning of a search result. -/
def Position (key : α → κ) (xs : List α) (k : κ) : Bool × ℕ → Prop
  | (true, i) => ∃ x, xs[i]? = some x ∧ key x = k
  | (false, i) => Splits key xs k i

theorem searchLoop_found (key : α → κ) (xs : List α) (k : κ) {lo hi : ℕ}
    (h : searchLoop key xs k fuel lo hi = (true, i)) : ∃ x, xs[i]? = some x ∧ key x = k := by
  induction fuel generalizing lo hi with
  | zero => simp [searchLoop] at h
  | succ fuel ih =>
    simp only [searchLoop] at h
    split at h
    · split at h
      · simp at h
      · rename_i x hx
        split at h
        · rename_i hk
          obtain rfl : lo + (hi - lo) / 2 = i := by simpa using h
          exact ⟨x, hx, hk.symm⟩
        · split at h
          · exact ih h
          · exact ih h
    · simp at h

/-- A search that reports success points at an entry with the key, on any list. -/
theorem search_found (key : α → κ) (xs : List α) (k : κ) (h : search key xs k = (true, i)) :
    ∃ x, xs[i]? = some x ∧ key x = k :=
  searchLoop_found key xs k h

section

variable {key : α → κ} {xs : List α} {k : κ} {upd : α → α} {new x : α}

/-- In an ascending list the entries up to an entry lie at or below its key. -/
theorem key_le_of_mem_take (hs : Ascending key xs)
    (hx : xs[i]? = some x) {y : α} (hy : y ∈ xs.take (i + 1)) : key y ≤ key x := by
  obtain ⟨hi, rfl⟩ := List.getElem?_eq_some_iff.mp hx
  obtain ⟨j, hj, rfl⟩ := mem_take_iff_getElem.mp hy
  rcases lt_or_ge j i with hlt | hge
  · exact (pairwise_iff_getElem.mp hs j i (by omega) hi hlt).le
  · obtain rfl : j = i := by omega
    exact le_rfl

/-- In an ascending list the entries from an entry on lie at or above its key. -/
private theorem key_le_of_mem_drop (hs : Ascending key xs)
    (hx : xs[i]? = some x) {y : α} (hy : y ∈ xs.drop i) : key x ≤ key y := by
  obtain ⟨hi, rfl⟩ := List.getElem?_eq_some_iff.mp hx
  obtain ⟨j, hj, rfl⟩ := mem_drop_iff_getElem.mp hy
  rcases Nat.eq_zero_or_pos j with rfl | hpos
  · simp
  · exact (pairwise_iff_getElem.mp hs i (i + j) hi (by omega) (by omega)).le

theorem searchLoop_position (hs : Ascending key xs) (k : κ)
    {lo hi : ℕ} (hfuel : hi - lo ≤ fuel) (hlh : lo ≤ hi) (hhi : hi ≤ xs.length)
    (hlow : ∀ x ∈ xs.take lo, key x < k) (hhigh : ∀ x ∈ xs.drop hi, k < key x) :
    Position key xs k (searchLoop key xs k fuel lo hi) := by
  induction fuel generalizing lo hi with
  | zero =>
    obtain rfl : lo = hi := by omega
    exact ⟨hlow, hhigh⟩
  | succ fuel ih =>
    simp only [searchLoop]
    split
    · have hmid : lo + (hi - lo) / 2 < xs.length := by omega
      rw [getElem?_eq_getElem hmid]
      have hx := getElem?_eq_getElem hmid
      dsimp only
      split
      · rename_i hk
        exact ⟨_, hx, hk.symm⟩
      · rename_i hne
        split
        · rename_i hlt'
          -- the key lies to the right: everything up to `mid` is below it
          exact ih (by omega) (by omega) hhi
            (fun y hy => (key_le_of_mem_take hs hx hy).trans_lt hlt') hhigh
        · rename_i hge
          -- the key lies to the left: everything from `mid` on is above it
          have hgt := lt_of_le_of_ne (le_of_not_gt hge) hne
          exact ih (by omega) (by omega) (by omega) hlow
            (fun y hy => hgt.trans_le (key_le_of_mem_drop hs hx hy))
    · obtain rfl : lo = hi := by omega
      exact ⟨hlow, hhigh⟩

/-- On an ascending list a search finds the key or the place to insert it. -/
theorem search_position (hs : Ascending key xs) (k : κ) : Position key xs k (search key xs k) :=
  searchLoop_position hs k (by omega) (by omega) le_rfl (by simp) (by simp)

/-- A key whose place was found to be free does not occur. -/
theorem Splits.key_ne (h : Splits key xs k i) (hx : x ∈ xs) : key x ≠ k := by
  rw [← take_append_drop i xs, mem_append] at hx
  rcases hx with hx | hx
  · exact (h.1 x hx).ne
  · exact (h.2 x hx).ne'

/-- A place that splits the list is known by what lies before it. -/
theorem Splits.take_eq (h : Splits key xs k i) : xs.take i = xs.filter fun x => key x < k := by
  conv_rhs => rw [← take_append_drop i xs, filter_append]
  have hlow : (xs.take i).filter (fun x => key x < k) = xs.take i :=
    filter_eq_self.mpr fun x hx => by simpa using h.1 x hx
  have hhigh : (xs.drop i).filter (fun x => key x < k) = [] :=
    filter_eq_nil_iff.mpr fun x hx => by simpa using (h.2 x hx).le
  rw [hlow, hhigh, append_nil]

theorem Splits.drop_eq (h : Splits key xs k i) : xs.drop i = xs.filter fun x => k < key x := by
  conv_rhs => rw [← take_append_drop i xs, filter_append]
  have hlow : (xs.take i).filter (fun x => k < key x) = [] :=
    filter_eq_nil_iff.mpr fun x hx => by simpa using (h.1 x hx).le
  have hhigh : (xs.drop i).filter (fun x => k < key x) = xs.drop i :=
    filter_eq_self.mpr fun x hx => by simpa using h.2 x hx
  rw [hlow, hhigh, nil_append]

/-! ## §2 Update Or Insert -/

/-- Update the entry a search found, or insert a new entry at the place it reported. -/
def upsertAt (xs : List α) (upd : α → α) (new : α) : Bool × ℕ → List α
  | (true, i) => xs.modify i upd
  | (false, i) => xs.take i ++ new :: xs.drop i

theorem mem_modify_of_getElem? {y : α} (hx : xs[i]? = some x) :
    y ∈ xs.modify i upd ↔ y ∈ xs.take i ∨ y = upd x ∨ y ∈ xs.drop (i + 1) := by
  obtain ⟨hi, rfl⟩ := List.getElem?_eq_some_iff.mp hx
  rw [modify_eq_take_cons_drop hi]
  simp

theorem upsertAt_ascending (hs : Ascending key xs)
    (hp : Position key xs k p) (hupd : ∀ x, key (upd x) = key x)
    (hnew : key new = k) : Ascending key (upsertAt xs upd new p) := by
  rcases p with ⟨_ | _, i⟩
  · obtain ⟨hlow, hhigh⟩ := hp
    simp only [upsertAt, Ascending, pairwise_append, pairwise_cons, mem_cons]
    refine ⟨hs.take, ⟨fun x hx => hnew ▸ hhigh x hx, hs.drop⟩, ?_⟩
    rintro x hx y (rfl | hy)
    · exact hnew ▸ hlow x hx
    · exact (hlow x hx).trans (hhigh y hy)
  · have hmap : (xs.modify i upd).map key = xs.map key := by
      apply ext_getElem
      · simp
      · intro j h₁ h₂
        simp only [getElem_map, getElem_modify]
        split
        · exact hupd _
        · rfl
    have : (xs.map key).Pairwise (· < ·) := pairwise_map.mpr hs
    rw [← hmap] at this
    exact pairwise_map.mp this

theorem length_upsertAt_le (xs : List α) (upd : α → α) (new : α) (p : Bool × ℕ) :
    (upsertAt xs upd new p).length ≤ xs.length + 1 := by
  rcases p with ⟨_ | _, i⟩
  · simp only [upsertAt, length_append, length_cons, length_take, length_drop]
    omega
  · simp [upsertAt]

/-- An entry stays at its index or moves up by one. -/
theorem exists_getElem?_upsertAt (upd : α → α) (new : α) (p : Bool × ℕ) {k : ℕ}
    (hx : xs[k]? = some x) : ∃ k', k ≤ k' ∧
      ((upsertAt xs upd new p)[k']? = some x ∨ (upsertAt xs upd new p)[k']? = some (upd x)) := by
  have hk : k < xs.length := (List.getElem?_eq_some_iff.mp hx).1
  rcases p with ⟨_ | _, i⟩
  · rcases lt_or_ge k i with hki | hki
    · refine ⟨k, le_rfl, .inl ?_⟩
      rw [upsertAt, getElem?_append_left (by rw [length_take]; omega), getElem?_take_of_lt hki, hx]
    · refine ⟨k + 1, Nat.le_succ k, .inl ?_⟩
      have hlen : (xs.take i).length = i := by
        rw [length_take]
        omega
      have hsub : k + 1 - i = (k - i) + 1 := by omega
      rw [upsertAt, getElem?_append_right (by omega), hlen, hsub, getElem?_cons_succ,
        getElem?_drop, Nat.add_sub_cancel' hki, hx]
  · refine ⟨k, le_rfl, ?_⟩
    rw [upsertAt, getElem?_modify, hx]
    by_cases hik : i = k
    · simp [hik]
    · simp [hik]

/-- An update or insertion leaves an entry with the key. -/
theorem exists_mem_upsertAt (hp : Position key xs k p) (hupd : ∀ x, key (upd x) = key x)
    (hnew : key new = k) :
    ∃ x ∈ upsertAt xs upd new p, key x = k := by
  rcases p with ⟨_ | _, i⟩
  · exact ⟨new, mem_append_right _ mem_cons_self, hnew⟩
  · obtain ⟨x, hx, hk⟩ := hp
    exact ⟨upd x, (mem_modify_of_getElem? hx).mpr (.inr (.inl rfl)), (hupd x).trans hk⟩

/-- Entries with other keys are kept by an update or insertion, on any list. -/
theorem mem_upsertAt_of_key_ne
    (hupd : ∀ x, key (upd x) = key x) (hnew : key new = k) (hp : p.1 = true → Position key xs k p)
    {y : α} (hy : key y ≠ k) : y ∈ upsertAt xs upd new p ↔ y ∈ xs := by
  rcases p with ⟨_ | _, i⟩
  · have hne : y ≠ new := fun h => hy (h ▸ hnew)
    simp only [upsertAt, mem_append, mem_cons, hne, false_or]
    rw [← mem_append, take_append_drop]
  · obtain ⟨x, hx, hk⟩ := hp rfl
    have hne : y ≠ upd x := fun h => hy (by rw [h, hupd, hk])
    have hne' : y ≠ x := fun h => hy (h ▸ hk)
    rw [upsertAt, mem_modify_of_getElem? hx]
    obtain ⟨hi, rfl⟩ := List.getElem?_eq_some_iff.mp hx
    conv_rhs =>
      rw [← take_append_drop i xs, drop_eq_getElem_cons hi, mem_append, mem_cons]
    simp only [hne, hne', false_or]

/-- The entries an update or insertion leaves under the key itself, in an ascending list. -/
theorem mem_upsertAt_of_key_eq (hs : Ascending key xs) (hp : Position key xs k p) {y : α}
    (hy : key y = k) :
    y ∈ upsertAt xs upd new p ↔
      (∃ x ∈ xs, key x = k ∧ y = upd x) ∨ ((∀ x ∈ xs, key x ≠ k) ∧ y = new) := by
  rcases p with ⟨_ | _, i⟩
  · have habs : ∀ x ∈ xs, key x ≠ k := fun x hx => Splits.key_ne hp hx
    have hyn : y ∉ xs := fun h => habs y h hy
    have hy₁ : y ∉ xs.take i := fun h => hyn (mem_of_mem_take h)
    have hy₂ : y ∉ xs.drop i := fun h => hyn (mem_of_mem_drop h)
    simp only [upsertAt, mem_append, mem_cons, hy₁, hy₂, false_or, or_false]
    constructor
    · exact fun h => .inr ⟨habs, h⟩
    · rintro (⟨x, hx, hk, -⟩ | ⟨-, h⟩)
      · exact absurd hk (habs x hx)
      · exact h
  · obtain ⟨x, hx, hk⟩ := hp
    have huniq : ∀ z ∈ xs, key z = k → z = x := by
      intro z hz hzk
      obtain ⟨j, hj, rfl⟩ := mem_iff_getElem.mp hz
      obtain ⟨hi, rfl⟩ := List.getElem?_eq_some_iff.mp hx
      rcases lt_trichotomy j i with h | h | h
      · have := pairwise_iff_getElem.mp hs j i hj hi h
        exact absurd this (by rw [hzk, hk]; exact lt_irrefl k)
      · subst h; rfl
      · have := pairwise_iff_getElem.mp hs i j hi hj h
        exact absurd this (by rw [hzk, hk]; exact lt_irrefl k)
    have hxm : x ∈ xs := mem_of_getElem? hx
    rw [upsertAt, mem_modify_of_getElem? hx]
    constructor
    · rintro (h | h | h)
      · -- an entry with the key before index `i` would be `x` itself
        exact absurd h (notMem_take_of_ascending hs hx (huniq y (mem_of_mem_take h) hy))
      · exact .inl ⟨x, hxm, hk, h⟩
      · exact absurd h (notMem_drop_of_ascending hs hx (huniq y (mem_of_mem_drop h) hy))
    · rintro (⟨z, hz, hzk, rfl⟩ | ⟨habs, -⟩)
      · exact .inr (.inl (by rw [huniq z hz hzk]))
      · exact absurd hk (habs x hxm)
where
  notMem_take_of_ascending {key : α → κ} {xs : List α} (hs : Ascending key xs) {i : ℕ}
      {x y : α} (hx : xs[i]? = some x) (hyx : y = x) : y ∉ xs.take i := by
    subst hyx
    intro h
    obtain ⟨hi, rfl⟩ := List.getElem?_eq_some_iff.mp hx
    obtain ⟨j, hj, heq⟩ := mem_take_iff_getElem.mp h
    have := pairwise_iff_getElem.mp hs j i (by omega) hi (by omega)
    rw [heq] at this
    exact lt_irrefl _ this
  notMem_drop_of_ascending {key : α → κ} {xs : List α} (hs : Ascending key xs) {i : ℕ}
      {x y : α} (hx : xs[i]? = some x) (hyx : y = x) : y ∉ xs.drop (i + 1) := by
    subst hyx
    intro h
    obtain ⟨hi, rfl⟩ := List.getElem?_eq_some_iff.mp hx
    obtain ⟨j, hj, heq⟩ := mem_drop_iff_getElem.mp h
    have := pairwise_iff_getElem.mp hs i (i + 1 + j) hi (by omega) (by omega)
    rw [heq] at this
    exact lt_irrefl _ this

end

/-- Insert a value into a list of values at the place a search reports, unless found. -/
def insertSorted (xs : List κ) (x : κ) : List κ := upsertAt xs id x (search id xs x)

/-- Insertion adds exactly the value, on any list. -/
@[simp] theorem mem_insertSorted (xs : List κ) (x y : κ) :
    y ∈ insertSorted xs x ↔ y = x ∨ y ∈ xs := by
  unfold insertSorted
  cases hsearch : search id xs x with
  | mk found i =>
    cases found with
    | false =>
      rw [upsertAt, mem_append, mem_cons, or_left_comm, ← mem_append, take_append_drop]
    | true =>
      obtain ⟨z, hz, rfl⟩ := search_found id xs x hsearch
      have hmem : z ∈ xs := mem_of_getElem? hz
      rw [upsertAt, modify_id]
      exact ⟨.inr, fun h => h.elim (fun h => h ▸ hmem) (fun h => h)⟩

/-- Sort and drop repeats. -/
def sortDedup (xs : List κ) : List κ := (xs.insertionSort (· ≤ ·)).dedup

@[simp] theorem mem_sortDedup {xs : List κ} {x : κ} : x ∈ sortDedup xs ↔ x ∈ xs := by
  simp [sortDedup]

theorem sortDedup_pairwise_lt (xs : List κ) : (sortDedup xs).Pairwise (· < ·) := by
  have hle : (sortDedup xs).Pairwise (· ≤ ·) :=
    (pairwise_insertionSort (· ≤ ·) xs).sublist (dedup_sublist _)
  exact (hle.and (nodup_dedup _)).imp fun h => lt_of_le_of_ne h.1 h.2

theorem le_foldl_max (f : α → ℕ) (l : List α) (n : ℕ) :
    n ≤ l.foldl (fun n x => max n (f x)) n ∧ ∀ x ∈ l, f x ≤ l.foldl (fun n x => max n (f x)) n := by
  induction l generalizing n with
  | nil => simp
  | cons y l ih =>
    obtain ⟨hle, hall⟩ := ih (max n (f y))
    refine ⟨(le_max_left n _).trans hle, fun x hx => ?_⟩
    rcases mem_cons.mp hx with rfl | hx
    · exact (le_max_right n _).trans hle
    · exact hall x hx

/-! ## §3 Arrays Carrying Their Order -/

/-- An array of entries in strictly ascending order of their keys. -/
structure SortedArray (α : Type u) {κ : Type v} [LinearOrder κ] (key : α → κ) where
  /-- The entries, in order -/
  entries : List α
  /-- Keys ascend strictly, so they are distinct -/
  ascending : Ascending key entries

namespace SortedArray

variable {key : α → κ} {a : SortedArray α key} {k : κ} {x y : α}

/-- The array without entries. -/
def empty : SortedArray α key := ⟨[], List.Pairwise.nil⟩

@[simp] theorem entries_empty : (empty : SortedArray α key).entries = [] := rfl

@[ext] theorem ext {a b : SortedArray α key} (h : a.entries = b.entries) : a = b := by
  cases a; simp_all

instance [DecidableEq α] : DecidableEq (SortedArray α key) := fun a b =>
  decidable_of_iff (a.entries = b.entries) ⟨ext, fun h => h ▸ rfl⟩

/-- Two entries with one key are the same entry. -/
theorem eq_of_key_eq (a : SortedArray α key) {x y : α} (hx : x ∈ a.entries)
    (hy : y ∈ a.entries) (h : key x = key y) : x = y := by
  obtain ⟨i, hi, rfl⟩ := mem_iff_getElem.mp hx
  obtain ⟨j, hj, rfl⟩ := mem_iff_getElem.mp hy
  rcases lt_trichotomy i j with hlt | heq | hgt
  · exact absurd h (pairwise_iff_getElem.mp a.ascending i j hi hj hlt).ne
  · subst heq; rfl
  · exact absurd h (pairwise_iff_getElem.mp a.ascending j i hj hi hgt).ne'

/-- The entry with a key. -/
def find (a : SortedArray α key) (k : κ) : Option α :=
  match search key a.entries k with
  | (true, i) => a.entries[i]?
  | (false, _) => none

theorem find_eq_some_iff : a.find k = some x ↔ x ∈ a.entries ∧ key x = k := by
  have hpos := search_position a.ascending k
  unfold find
  cases hsearch : search key a.entries k with
  | mk found i =>
    rw [hsearch] at hpos
    cases found with
    | false =>
      constructor
      · intro h
        cases h
      · intro ⟨hx, hk⟩
        exact absurd hk (Splits.key_ne hpos hx)
    | true =>
      obtain ⟨y, hy, hk⟩ := hpos
      dsimp only
      rw [hy, Option.some.injEq]
      constructor
      · rintro rfl
        exact ⟨mem_of_getElem? hy, hk⟩
      · intro ⟨hx, hkx⟩
        exact a.eq_of_key_eq (mem_of_getElem? hy) hx (hk.trans hkx.symm)

theorem find_eq_none_iff : a.find k = none ↔ ∀ x ∈ a.entries, key x ≠ k := by
  rw [Option.eq_none_iff_forall_ne_some]
  simp only [ne_eq, find_eq_some_iff, not_and]

/-- Add an entry, unless there is one with its key. -/
def add (a : SortedArray α key) (x : α) : SortedArray α key :=
  ⟨upsertAt a.entries id x (search key a.entries (key x)),
    upsertAt_ascending a.ascending (search_position a.ascending (key x)) (fun _ => rfl) rfl⟩

theorem entries_add (hx : ∀ y ∈ a.entries, key y ≠ key x) :
    ∃ i, (a.add x).entries = a.entries.take i ++ x :: a.entries.drop i := by
  show ∃ i, upsertAt a.entries id x (search key a.entries (key x)) = _
  cases hsearch : search key a.entries (key x) with
  | mk found i =>
    cases found with
    | false => exact ⟨i, rfl⟩
    | true =>
      obtain ⟨y, hy, hk⟩ := search_found key a.entries (key x) hsearch
      exact absurd hk (hx y (mem_of_getElem? hy))

theorem mem_add (hx : ∀ y ∈ a.entries, key y ≠ key x) :
    y ∈ (a.add x).entries ↔ y = x ∨ y ∈ a.entries := by
  obtain ⟨i, hi⟩ := entries_add hx
  rw [hi, mem_append, mem_cons, or_left_comm, ← mem_append, take_append_drop]

theorem length_add (hx : ∀ y ∈ a.entries, key y ≠ key x) :
    (a.add x).entries.length = a.entries.length + 1 := by
  obtain ⟨i, hi⟩ := entries_add hx
  rw [hi, length_append, length_cons, ← add_assoc, ← length_append, take_append_drop]

/-- An update that changes nothing for the entry with the key changes nothing. -/
theorem upsertAt_eq_self {xs : List α} (hs : Ascending key xs)
    (hp : Position key xs k p) {upd : α → α} (new : α) (hx : x ∈ xs) (hk : key x = k)
    (hupd : upd x = x) : upsertAt xs upd new p = xs := by
  rcases p with ⟨_ | _, i⟩
  · -- the key is there, so the search did not report a place for it
    obtain ⟨hlow, hhigh⟩ := hp
    rw [← take_append_drop i xs, mem_append] at hx
    rcases hx with hx | hx
    · exact absurd hk (hlow x hx).ne
    · exact absurd hk (hhigh x hx).ne'
  · obtain ⟨y, hy, hyk⟩ := hp
    have hyx : y = x :=
      eq_of_key_eq ⟨xs, hs⟩ (mem_of_getElem? hy) hx (hyk.trans hk.symm)
    apply ext_getElem?
    intro j
    rw [upsertAt, getElem?_modify]
    split
    · rename_i hij
      rw [← hij, hy, hyx]
      exact congrArg some hupd
    · exact id_map _

end SortedArray

/-! ## §4 Capacity -/

/-- Double the capacity `n` until it reaches the target; the target is fuel enough. -/
def doubleUntil (target : ℕ) : ℕ → ℕ → ℕ
  | 0, n => n
  | fuel + 1, n => if n < target then doubleUntil target fuel (2 * n) else n

theorem exists_doubleUntil_eq_two_pow (target fuel i : ℕ) :
    ∃ k, doubleUntil target fuel (2 ^ i) = 2 ^ k := by
  induction fuel generalizing i with
  | zero => exact ⟨i, rfl⟩
  | succ fuel ih =>
    unfold doubleUntil
    split
    · rw [← pow_succ']
      exact ih (i + 1)
    · exact ⟨i, rfl⟩

theorem doubleUntil_le_two_pow {target i j : ℕ} (fuel : ℕ) (hij : i ≤ j) (h : target ≤ 2 ^ j) :
    doubleUntil target fuel (2 ^ i) ≤ 2 ^ j := by
  induction fuel generalizing i with
  | zero => exact Nat.pow_le_pow_right Nat.two_pos hij
  | succ fuel ih =>
    unfold doubleUntil
    split
    · rename_i hlt
      rw [← pow_succ']
      exact ih ((Nat.pow_lt_pow_iff_right (by decide)).mp (hlt.trans_le h))
    · exact Nat.pow_le_pow_right Nat.two_pos hij

theorem le_doubleUntil {target n : ℕ} (hn : 0 < n) (h : target ≤ n + fuel) :
    target ≤ doubleUntil target fuel n := by
  induction fuel generalizing n with
  | zero => exact h
  | succ fuel ih =>
    unfold doubleUntil
    split
    · exact ih (by omega) (by omega)
    · exact not_lt.mp ‹_›

end Libfsm.Lib
