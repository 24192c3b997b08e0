import Libfsm.Re.Strings

/-!
# String Sets With End IDs

What the FSM of `re_strings_build` reports when every string is added with an end ID.  The
states of strings keep their IDs, so they are never collapsed into the single end state; and
the IDs are not handed on along failure edges.

- `taggedEntries`: the entries of strings with end IDs
- `reStringsBuild_reports_iff`: the string sets for which the FSM reports the IDs of exactly
  the strings that match
-/

namespace Libfsm

open Lib
open List hiding nil cons

/-! ## §1 Strings With IDs -/

/-- The entries of strings that are added with an end ID each. -/
def taggedEntries (strings : List (List Byte × ℕ)) : List TrieEntry :=
  strings.map fun x => (x.1, some x.2)

variable {strings : List (List Byte × ℕ)} {left right : Bool} {u w : List Byte} {i : ℕ}

@[simp] theorem mem_taggedEntries : (u, some i) ∈ taggedEntries strings ↔ (u, i) ∈ strings := by
  simp [taggedEntries]

theorem listed_taggedEntries : Listed (taggedEntries strings) u ↔ ∃ i, (u, i) ∈ strings := by
  simp [Listed, taggedEntries]

theorem suffixed_taggedEntries :
    Suffixed (taggedEntries strings) u ↔ ∃ x ∈ strings, x.1 <:+ u := by
  simp [Suffixed, taggedEntries]

theorem occurs_taggedEntries :
    Occurs (taggedEntries strings) u ↔ ∃ x ∈ strings, x.1 <:+: u := by
  simp [Occurs, taggedEntries]

/-- Every prefix with a string for a suffix is a string, with all IDs of its suffixes. -/
def SuffixIdsListed (strings : List (List Byte × ℕ)) : Prop :=
  ∀ y ∈ strings, ∀ u ∈ y.1.inits, ∀ x ∈ strings, x.1 <:+ u → (u, x.2) ∈ strings

/-- Every prefix in which a string occurs is a string with its ID, and so is whatever prefix is
reached from there: an ID seen once is never lost. -/
def SeenIdsListed (strings : List (List Byte × ℕ)) : Prop :=
  (∀ y ∈ strings, ∀ u ∈ y.1.inits, ∀ x ∈ strings, x.1 <:+: u → (u, x.2) ∈ strings) ∧
    ∀ x ∈ strings, ∀ c,
      (longestSuffix (Node (taggedEntries strings)) (x.1 ++ [c]), x.2) ∈ strings

/-- The string sets whose FSM reports the right IDs, for each choice of anchors. -/
def EndidsSupported (left right : Bool) (strings : List (List Byte × ℕ)) : Prop :=
  match left, right with
  | true, true => True
  | true, false => strings = []
  | false, true => OutputsAgree (taggedEntries strings) ∧ SuffixIdsListed strings
  | false, false => SeenIdsListed strings

/-- What is asked of the FSM: it accepts the words that a string matches, and
reports the IDs of the strings that do. -/
def ReportsMatches (q : Fsm) (flags : ReStringsFlags) (strings : List (List Byte × ℕ)) : Prop :=
  ∀ w, (w ∈ q.language ↔ ∃ x ∈ strings, flags.Matches x.1 w) ∧
    ∀ i, i ∈ q.endIdsAfter w ↔ ∃ x ∈ strings, x.2 = i ∧ flags.Matches x.1 w

/-! ## §2 The Left Anchor -/

/-- With the left anchor, no state is collapsed. -/
theorem not_wordCollapses_left :
    ¬ WordCollapses (taggedEntries strings) (anchors true right) u := by
  rintro ⟨-, hout, hids⟩
  obtain ⟨i, hi⟩ := listed_taggedEntries.mp hout
  exact hids i (mem_taggedEntries.mpr hi)

theorem mem_language_tagged_left :
    w ∈ (reStringsBuild (trieOf (taggedEntries strings)) (anchors true right)).language ↔
      ∃ i, (w, i) ∈ strings := by
  rw [mem_language_reStringsBuild, wordRun_left rfl, ← listed_taggedEntries]
  constructor
  · rintro (⟨p, -, u, -, hc⟩ | ⟨u, hu, hout⟩)
    · exact absurd hc not_wordCollapses_left
    · split at hu
      · cases hu
        exact hout
      · cases hu
  · intro hl
    exact Or.inr ⟨w, by rw [if_pos hl.node], hl⟩

theorem mem_endIdsAfter_tagged_left :
    i ∈ (reStringsBuild (trieOf (taggedEntries strings)) (anchors true right)).endIdsAfter w ↔
      (w, i) ∈ strings := by
  rw [mem_endIdsAfter_reStringsBuild, wordRun_left rfl, ← mem_taggedEntries]
  constructor
  · rintro ⟨-, u, hu, hi⟩
    split at hu
    · cases hu
      exact hi
    · cases hu
  · intro hi
    refine ⟨fun ⟨p, _, u, _, hc⟩ => not_wordCollapses_left hc, w, ?_, hi⟩
    rw [if_pos (node_of_mem hi)]

/-- Both anchors: the strings are reported with their IDs. -/
theorem reportsMatches_both :
    ReportsMatches (reStringsBuild (trieOf (taggedEntries strings)) (anchors true true))
      (anchors true true) strings := by
  intro w
  refine ⟨?_, fun i => ?_⟩
  · rw [mem_language_tagged_left]
    constructor
    · intro ⟨i, hi⟩
      exact ⟨(w, i), hi, rfl⟩
    · rintro ⟨⟨x, i⟩, hx, rfl⟩
      exact ⟨i, hx⟩
  · rw [mem_endIdsAfter_tagged_left]
    constructor
    · intro hi
      exact ⟨(w, i), hi, rfl, rfl⟩
    · rintro ⟨⟨x, j⟩, hx, rfl, rfl⟩
      exact hx

/-- The left anchor alone: a string may be followed by more than any string is long, and is
not reported then. -/
theorem reportsMatches_left_iff :
    ReportsMatches (reStringsBuild (trieOf (taggedEntries strings)) (anchors true false))
      (anchors true false) strings ↔ strings = [] := by
  constructor
  · intro h
    by_contra hne
    obtain ⟨x, hx⟩ := exists_mem_of_ne_nil strings hne
    let lengths : List ℕ := strings.map fun y => y.1.length
    have hmem := (h (x.1 ++ replicate (lengths.sum + 1) 0)).1.mpr
      ⟨x, hx, prefix_append _ _⟩
    obtain ⟨i, hi⟩ := mem_language_tagged_left.mp hmem
    have hlen : (x.1 ++ replicate (lengths.sum + 1) 0).length ∈ lengths :=
      mem_map.mpr ⟨_, hi, rfl⟩
    have hle := single_le_sum (fun _ _ => Nat.zero_le _) _ hlen
    rw [length_append, length_replicate] at hle
    omega
  · rintro rfl w
    simp [mem_language_tagged_left, mem_endIdsAfter_tagged_left]

/-! ## §3 The Right Anchor Alone -/

theorem not_wordCollapses_right : ¬ WordCollapses (taggedEntries strings) (anchors left true) u :=
  fun h => Bool.false_ne_true h.1

/-- The right anchor alone: the state reached is that of the longest suffix, with its own IDs
only. -/
theorem reportsMatches_right_iff :
    ReportsMatches (reStringsBuild (trieOf (taggedEntries strings)) (anchors false true))
      (anchors false true) strings ↔
      OutputsAgree (taggedEntries strings) ∧ SuffixIdsListed strings := by
  have hlang : ∀ w, w ∈ (reStringsBuild (trieOf (taggedEntries strings))
      (anchors false true)).language ↔ Marked (taggedEntries strings)
        (longestSuffix (Node (taggedEntries strings)) w) := by
    intro w
    rw [mem_language_reStringsBuild, wordRun_unanchored rfl]
    simp only [not_wordCollapses_right, and_false, exists_false, false_or, Option.some.injEq,
      exists_eq_left']
    rfl
  have hids : ∀ w i, i ∈ (reStringsBuild (trieOf (taggedEntries strings))
      (anchors false true)).endIdsAfter w ↔
        (longestSuffix (Node (taggedEntries strings)) w, i) ∈ strings := by
    intro w i
    rw [mem_endIdsAfter_reStringsBuild, wordRun_unanchored rfl]
    simp [not_wordCollapses_right]
  have hmatch : ∀ x w, (anchors false true).Matches x w ↔ x <:+ w := fun _ _ => Iff.rfl
  unfold ReportsMatches
  simp only [hlang, hids, hmatch, forall_and, ← forall_suffix_hit_iff, suffixed_taggedEntries]
  apply and_congr_right
  intro _
  constructor
  · intro h y hy u hu x hx hsuf
    have hnode : Node (taggedEntries strings) u :=
      node_of_mem_inits (mem_taggedEntries.mpr hy) hu
    have hmem := (h u x.2).mpr ⟨x, hx, rfl, hsuf⟩
    rwa [longestSuffix_of_mem hnode] at hmem
  · intro h w i
    constructor
    · intro hi
      exact ⟨_, hi, rfl, longestSuffix_suffix _ w⟩
    · rintro ⟨x, hx, rfl, hsuf⟩
      have hx' : Node (taggedEntries strings) x.1 := node_of_mem (mem_taggedEntries.mpr hx)
      have hsuf' := suffix_longestSuffix hx' hsuf
      have hnode := (prefixClosed_node (taggedEntries strings)).mem_longestSuffix w
      -- it is empty, or a prefix of a listed string
      by_cases hne : longestSuffix (Node (taggedEntries strings)) w = []
      · rw [hne] at hsuf' ⊢
        rw [← suffix_nil.mp hsuf']
        exact hx
      · obtain ⟨e, he, hu⟩ := hnode.exists_inits hne
        obtain ⟨y, hy, rfl⟩ := mem_map.mp he
        exact h y hy _ hu x hx hsuf'

/-! ## §4 No Anchors -/

/-- Without anchors, the collapsed states are those that only have an output handed on. -/
theorem wordCollapses_unanchored :
    WordCollapses (taggedEntries strings) (anchors false false) u ↔
      Marked (taggedEntries strings) u ∧ ∀ i, (u, i) ∉ strings := by
  simp only [WordCollapses, mem_taggedEntries]
  exact and_iff_right rfl

/-- In a string set that loses no ID, the state reached has the IDs of all strings seen. -/
theorem SeenIdsListed.mem_iff (h : SeenIdsListed strings) (w : List Byte) (i : ℕ) :
    (longestSuffix (Node (taggedEntries strings)) w, i) ∈ strings ↔
      ∃ x ∈ strings, x.2 = i ∧ x.1 <:+: w := by
  have hT := prefixClosed_node (taggedEntries strings)
  constructor
  · intro hi
    exact ⟨_, hi, rfl, (longestSuffix_suffix _ w).isInfix⟩
  · rintro ⟨x, hx, rfl, hocc⟩
    -- by induction on the word: the string ends with it, or was seen before
    induction w using List.reverseRecOn with
    | nil =>
      rw [longestSuffix_nil, ← infix_nil.mp hocc]
      exact hx
    | append_singleton w c ih =>
      rcases infix_concat_iff.mp hocc with hsuf | hocc
      · have hnode := hT.mem_longestSuffix (w ++ [c])
        have hx' : Node (taggedEntries strings) x.1 := node_of_mem (mem_taggedEntries.mpr hx)
        have hsuf' := suffix_longestSuffix hx' hsuf
        by_cases hne : longestSuffix (Node (taggedEntries strings)) (w ++ [c]) = []
        · rw [hne] at hsuf' ⊢
          rw [← suffix_nil.mp hsuf']
          exact hx
        · obtain ⟨e, he, hu⟩ := hnode.exists_inits hne
          obtain ⟨y, hy, rfl⟩ := mem_map.mp he
          exact h.1 y hy _ hu x hx hsuf'.isInfix
      · rw [hT.longestSuffix_append_singleton]
        exact h.2 _ (ih hocc) c

/-- Then an output is never handed on to a prefix without IDs of its own. -/
theorem SeenIdsListed.listed_of_marked (h : SeenIdsListed strings)
    (hu : Node (taggedEntries strings) u) (hm : Marked (taggedEntries strings) u) :
    ∃ i, (u, i) ∈ strings := by
  obtain ⟨x, hx, hocc⟩ := occurs_taggedEntries.mp hm.occurs
  have hmem := (h.mem_iff u x.2).mpr ⟨x, hx, rfl, hocc⟩
  rw [longestSuffix_of_mem hu] at hmem
  exact ⟨x.2, hmem⟩

/-- No anchors: the IDs reported are those of the state reached, so every string seen must
have left its ID there. -/
theorem reportsMatches_unanchored_iff :
    ReportsMatches (reStringsBuild (trieOf (taggedEntries strings)) (anchors false false))
      (anchors false false) strings ↔ SeenIdsListed strings := by
  have hT := prefixClosed_node (taggedEntries strings)
  have hids : ∀ {w i}, i ∈ (reStringsBuild (trieOf (taggedEntries strings))
      (anchors false false)).endIdsAfter w →
        (longestSuffix (Node (taggedEntries strings)) w, i) ∈ strings := by
    intro w i hi
    rw [mem_endIdsAfter_reStringsBuild, wordRun_unanchored rfl] at hi
    obtain ⟨-, u, hu, hmem⟩ := hi
    cases hu
    exact mem_taggedEntries.mp hmem
  constructor
  · intro h
    refine ⟨?_, ?_⟩
    · intro y hy u hu x hx hocc
      have hnode : Node (taggedEntries strings) u :=
        node_of_mem_inits (mem_taggedEntries.mpr hy) hu
      have hmem := hids (((h u).2 x.2).mpr ⟨x, hx, rfl, hocc⟩)
      rwa [longestSuffix_of_mem hnode] at hmem
    · intro x hx c
      exact hids (((h (x.1 ++ [c])).2 x.2).mpr ⟨x, hx, rfl, (prefix_append x.1 [c]).isInfix⟩)
  · intro h
    -- no word goes through a collapsed state
    have hnot : ∀ w, ¬ ∃ p, p <+: w ∧ ∃ u,
        wordRun (taggedEntries strings) (anchors false false) p = some u ∧
          WordCollapses (taggedEntries strings) (anchors false false) u := by
      rintro w ⟨p, -, u, hu, hc⟩
      rw [wordRun_unanchored rfl] at hu
      cases hu
      obtain ⟨hm, hno⟩ := wordCollapses_unanchored.mp hc
      obtain ⟨i, hi⟩ := h.listed_of_marked (hT.mem_longestSuffix p) hm
      exact hno i hi
    intro w
    refine ⟨?_, fun i => ?_⟩
    · rw [mem_language_reStringsBuild, or_iff_right (hnot w), wordRun_unanchored rfl]
      constructor
      · rintro ⟨u, hu, hout⟩
        cases hu
        obtain ⟨i, hi⟩ := h.listed_of_marked (hT.mem_longestSuffix w) hout
        obtain ⟨x, hx, -, hocc⟩ := (h.mem_iff w i).mp hi
        exact ⟨x, hx, hocc⟩
      · intro ⟨x, hx, hocc⟩
        have hmem := (h.mem_iff w x.2).mpr ⟨x, hx, rfl, hocc⟩
        exact ⟨_, rfl, Listed.hasOutput (listed_taggedEntries.mpr ⟨x.2, hmem⟩)⟩
    · rw [mem_endIdsAfter_reStringsBuild, and_iff_right (hnot w), wordRun_unanchored rfl]
      simp only [Option.some.injEq, exists_eq_left', mem_taggedEntries]
      exact h.mem_iff w i

/-- **What a string set with end IDs reports**, for each choice of anchors. -/
theorem reStringsBuild_reports_iff (strings : List (List Byte × ℕ)) (left right : Bool) :
    ReportsMatches (reStringsBuild (trieOf (taggedEntries strings)) (anchors left right))
      (anchors left right) strings ↔ EndidsSupported left right strings := by
  cases left <;> cases right
  · exact reportsMatches_unanchored_iff
  · exact reportsMatches_right_iff
  · exact reportsMatches_left_iff
  · exact iff_of_true reportsMatches_both trivial

/-- The string `a` with the ID 7, without anchors: after `ax` the match is forgotten. -/
theorem reStringsBuild_forgets_match :
    [97, 120] ∉ (reStringsBuild (trieOf (taggedEntries [([97], 7)]))
      (anchors false false)).language ∧
    ∃ x ∈ [([(97 : Byte)], 7)], (anchors false false).Matches x.1 [97, 120] := by
  refine ⟨?_, ([97], 7), by simp, [], [120], rfl⟩
  have hstart : (reStringsBuild (trieOf (taggedEntries [([97], 7)]))
      (anchors false false)).start = some 1 := by decide +kernel
  have hrun : (reStringsBuild (trieOf (taggedEntries [([97], 7)]))
      (anchors false false)).runFrom 1 [97, 120] = some 1 := by decide +kernel
  have hend : ¬ (reStringsBuild (trieOf (taggedEntries [([97], 7)]))
      (anchors false false)).IsEnd 1 := by decide +kernel
  rw [(reStringsBuild_words _ _).1.mem_language_iff hstart, hrun]
  rintro ⟨s, ⟨rfl⟩, hs⟩
  exact hend hs

end Libfsm
