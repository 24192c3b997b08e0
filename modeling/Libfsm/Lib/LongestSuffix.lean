import Mathlib.Data.List.Infix

/-!
# Longest Suffixes In A Prefix-Closed Set

A search for many words at once reads a text and keeps the longest suffix of what it has read
that could still grow into a word.  The sets of interest are closed under taking prefixes.

- `longestSuffix`: the longest suffix of a word that is in the set
- `PrefixClosed`: the sets for which it can be kept up to date symbol by symbol
- `longestSuffix_append_singleton`: the update rule
- `border`: the longest proper suffix in the set, which is what a failure link points to
-/

namespace Libfsm.Lib

open List hiding nil cons

variable {α : Type*} (T : List α → Prop) [DecidablePred T]

variable {u v w : List α}

/-! ## §1 The Longest Suffix -/

/-- The longest suffix of a word that is in `T`; the empty word if there is none. -/
def longestSuffix : List α → List α
  | [] => []
  | a :: w => if T (a :: w) then a :: w else longestSuffix w

@[simp] theorem longestSuffix_nil : longestSuffix T [] = [] := rfl

theorem longestSuffix_cons (a : α) (w : List α) :
    longestSuffix T (a :: w) = if T (a :: w) then a :: w else longestSuffix T w := rfl

theorem longestSuffix_suffix (w : List α) : longestSuffix T w <:+ w := by
  induction w with
  | nil => exact suffix_rfl
  | cons a w ih =>
    rw [longestSuffix_cons]
    split
    · exact suffix_rfl
    · exact ih.trans (suffix_cons a w)

theorem length_longestSuffix_le (w : List α) : (longestSuffix T w).length ≤ w.length :=
  (longestSuffix_suffix T w).length_le

variable {T}

theorem longestSuffix_of_mem (h : T w) : longestSuffix T w = w := by
  cases w with
  | nil => rfl
  | cons a w => rw [longestSuffix_cons, if_pos h]

/-- Every suffix in the set is a suffix of the longest one. -/
theorem suffix_longestSuffix (hv : T v) (h : v <:+ w) : v <:+ longestSuffix T w := by
  induction w with
  | nil => exact h
  | cons a w ih =>
    rw [longestSuffix_cons]
    split
    · exact h
    · rename_i hnot
      rcases suffix_cons_iff.mp h with rfl | h'
      · exact absurd hv hnot
      · exact ih h'

variable (T) in
/-- The sets that hold the empty word and with a word all its prefixes. -/
structure PrefixClosed : Prop where
  nil : T []
  of_append : ∀ {u v}, T (u ++ v) → T u

omit [DecidablePred T] in
/-- A prefix-closed set may be extended by one symbol after a member. -/
theorem PrefixClosed.insert (hT : PrefixClosed T) {p : List α} (hp : T p) (c : α) :
    PrefixClosed fun u => T u ∨ u = p ++ [c] := by
  refine ⟨.inl hT.nil, ?_⟩
  rintro u v (hu | hu)
  · exact .inl (hT.of_append hu)
  · -- a proper prefix of the new member is a prefix of `p`
    rcases eq_nil_or_concat v with rfl | ⟨v, d, rfl⟩
    · exact .inr (by rwa [append_nil] at hu)
    · rw [concat_eq_append, ← append_assoc] at hu
      rw [← (append_inj' hu rfl).1] at hp
      exact .inl (hT.of_append hp)

namespace PrefixClosed

variable (hT : PrefixClosed T)
include hT

theorem mem_longestSuffix (w : List α) : T (longestSuffix T w) := by
  induction w with
  | nil => exact hT.nil
  | cons a w ih =>
    rw [longestSuffix_cons]
    split
    · assumption
    · exact ih

/-- The longest suffix is the one suffix in the set that has all others as suffixes. -/
theorem longestSuffix_eq_iff :
    longestSuffix T w = v ↔ T v ∧ v <:+ w ∧ ∀ u, T u → u <:+ w → u <:+ v := by
  constructor
  · rintro rfl
    exact ⟨hT.mem_longestSuffix w, longestSuffix_suffix T w, fun u => suffix_longestSuffix⟩
  · intro ⟨hv, hsuf, hmax⟩
    have hle := hmax _ (hT.mem_longestSuffix w) (longestSuffix_suffix T w)
    have hge := suffix_longestSuffix hv hsuf
    exact hle.eq_of_length_le hge.length_le

/-- The update rule: what was dropped before a symbol is of no use after it. -/
theorem longestSuffix_append_singleton (w : List α) (c : α) :
    longestSuffix T (w ++ [c]) = longestSuffix T (longestSuffix T w ++ [c]) := by
  rw [hT.longestSuffix_eq_iff]
  refine ⟨hT.mem_longestSuffix _, ?_, ?_⟩
  · apply (longestSuffix_suffix T _).trans
    exact suffix_append_inj_of_length_eq rfl |>.mpr ⟨longestSuffix_suffix T w, rfl⟩
  · intro u hu hsuf
    apply suffix_longestSuffix hu
    rcases suffix_concat_iff.mp hsuf with rfl | ⟨v, rfl, hv⟩
    · exact nil_suffix
    · -- the part before the symbol is in the set, so it was not dropped
      have hv' := suffix_longestSuffix (hT.of_append hu) hv
      exact suffix_append_inj_of_length_eq rfl |>.mpr ⟨hv', rfl⟩

end PrefixClosed

/-! ## §2 Borders -/

variable (T) in
/-- The longest proper suffix in the set. -/
def border (u : List α) : List α := longestSuffix T u.tail

variable (T) in
@[simp] theorem border_nil : border T [] = [] := rfl

variable (T) in
@[simp] theorem border_cons (a : α) (u : List α) : border T (a :: u) = longestSuffix T u := rfl

variable (T) in
theorem border_suffix (u : List α) : border T u <:+ u :=
  (longestSuffix_suffix T u.tail).trans (tail_suffix u)

variable (T) in
theorem length_border_lt (h : u ≠ []) : (border T u).length < u.length := by
  have hle := length_longestSuffix_le T u.tail
  have hpos := length_pos_iff.mpr h
  rw [length_tail] at hle
  unfold border
  omega

theorem PrefixClosed.mem_border (hT : PrefixClosed T) (u : List α) : T (border T u) :=
  hT.mem_longestSuffix _

/-- A suffix in the set is the word itself or a suffix of its border. -/
theorem suffix_iff_border (hv : T v) : v <:+ u ↔ v = u ∨ v <:+ border T u := by
  constructor
  · intro h
    cases u with
    | nil => exact .inr h
    | cons a u =>
      rcases suffix_cons_iff.mp h with rfl | h'
      · exact .inl rfl
      · exact .inr (suffix_longestSuffix hv h')
  · rintro (rfl | h)
    · exact suffix_rfl
    · exact h.trans (border_suffix T u)

/-- Following a border: if a word cannot grow by `c`, its border is tried next. -/
theorem PrefixClosed.longestSuffix_append_of_notMem (hT : PrefixClosed T) {c : α} (hne : u ≠ [])
    (hc : ¬ T (u ++ [c])) : longestSuffix T (u ++ [c]) = longestSuffix T (border T u ++ [c]) := by
  cases u with
  | nil => exact absurd rfl hne
  | cons a u =>
    rw [cons_append] at hc ⊢
    rw [longestSuffix_cons, if_neg hc, border_cons, hT.longestSuffix_append_singleton]

/-- The border of a longer word, from the border of the word. -/
theorem PrefixClosed.border_append_singleton (hT : PrefixClosed T) {c : α} (hne : u ≠ []) :
    border T (u ++ [c]) = longestSuffix T (border T u ++ [c]) := by
  cases u with
  | nil => exact absurd rfl hne
  | cons a u => exact hT.longestSuffix_append_singleton u c

end Libfsm.Lib
