import Libfsm.Re.TrieToFsm

/-!
# String Sets

What the FSM of `re_strings_build` accepts, in terms of the strings that were added, and for
which string sets that is what the anchors ask for.

- `reStringsBuild_words`: the FSM as a machine on the prefixes of the strings
- `mem_language_reStringsBuild`, `mem_endIdsAfter_reStringsBuild`: what it accepts and reports
- `ReStringsFlags.Matches`: what the anchors ask for
- `OutputsAgree`, `FirstHitsListed`: the string sets for which the outputs that the failure
  pass hands on are the right ones
-/

namespace Libfsm

open Lib
open List hiding nil next
open Option hiding some none

variable {u : List Byte} {words : List (List Byte)}

/-! ## §1 The Machine On Words -/

section Machine

variable (E : List TrieEntry) (flags : ReStringsFlags)

/-- The prefixes whose trie states have an output. -/
def HasOutput (u : List Byte) : Prop := if flags.anchorLeft then Listed E u else Marked E u

/-- The move from a prefix on a symbol: to the longer prefix, or without the left anchor to the
longest suffix that is a prefix. -/
def wordStep (u : List Byte) (c : Byte) : Option (List Byte) :=
  if flags.anchorLeft then if Node E (u ++ [c]) then some (u ++ [c]) else none
  else some (longestSuffix (Node E) (u ++ [c]))

/-- The prefixes that the single end state stands for. -/
def WordCollapses (u : List Byte) : Prop :=
  flags.haveEnd = true ∧ HasOutput E flags u ∧ ∀ i, (u, some i) ∉ E

/-- The prefix reached by a word, were there no single end state. -/
def wordRun (w : List Byte) : Option (List Byte) := runFrom (wordStep E flags) [] w

end Machine

variable {E : List TrieEntry} {flags : ReStringsFlags} {w : List Byte}

/-- With the left anchor a word reaches itself, if it is a prefix. -/
theorem wordRun_left (h : flags.anchorLeft = true) (w : List Byte) :
    wordRun E flags w = if Node E w then some w else none := by
  unfold wordRun
  induction w using List.reverseRecOn with
  | nil => rw [runFrom_nil, if_pos (prefixClosed_node E).nil]
  | append_singleton w c ih =>
    rw [runFrom_append_singleton, ih]
    by_cases hw : Node E w
    · rw [if_pos hw, bind_some, wordStep, if_pos h]
    · rw [if_neg hw, if_neg fun h' => hw ((prefixClosed_node E).of_append h'), bind_none]

/-- Without it a word reaches its longest suffix that is a prefix. -/
theorem wordRun_unanchored (h : flags.anchorLeft = false) (w : List Byte) :
    wordRun E flags w = some (longestSuffix (Node E) w) := by
  unfold wordRun
  induction w using List.reverseRecOn with
  | nil => rfl
  | append_singleton w c ih =>
    rw [runFrom_append_singleton, ih, bind_some, wordStep, h, if_neg Bool.false_ne_true,
      ← (prefixClosed_node E).longestSuffix_append_singleton]

theorem Listed.hasOutput (h : Listed E u) : HasOutput E flags u := by
  unfold HasOutput
  split
  · exact h
  · exact .word h

/-- A graph whose moves and outputs are those of the machine on words. -/
structure Spelled (g : TrieGraph) (E : List TrieEntry) (flags : ReStringsFlags)
    (path : ℕ → List Byte) : Prop where
  pos : 0 < g.nstates
  root : path 0 = []
  next_lt : ∀ n < g.nstates, ∀ c m, findNextState g n c = some m → m < g.nstates
  next : ∀ n < g.nstates, ∀ c, (findNextState g n c).map path = wordStep E flags (path n) c
  output : ∀ n < g.nstates, (g.state n).output = true ↔ HasOutput E flags (path n)
  endids : ∀ n < g.nstates, ∀ i, i ∈ (g.state n).endids ↔ (path n, some i) ∈ E

/-- The trie before the failure pass is the machine with the left anchor. -/
theorem Spells.spelled {g : TrieGraph} {path : ℕ → List Byte} (h : Spells g E path)
    (hleft : flags.anchorLeft = true) : Spelled g E flags path where
  pos := h.tree.pos
  root := h.tree.root
  next_lt n hn c m hm := by
    rw [h.findNextState_eq] at hm
    exact ((h.tree.child n hn c m).mp hm).1
  next n hn c := by
    rw [h.findNextState_eq, wordStep, if_pos hleft]
    rcases hchild : (g.state n).children c with _ | m
    · rw [if_neg ((h.tree.child_eq_none hn).mp hchild), map_none]
    · obtain ⟨hm, hpath⟩ := (h.tree.child n hn c m).mp hchild
      rw [if_pos (hpath ▸ h.tree.mem_path hm), map_some, hpath]
  output n hn := by rw [h.output n hn, HasOutput, if_pos hleft]
  endids := h.endids

/-- The trie after the failure pass is the machine without it. -/
theorem FailureLinked.spelled {g : TrieGraph} {path : ℕ → List Byte}
    (h : FailureLinked g E path) (hleft : flags.anchorLeft = false) :
    Spelled g E flags path where
  pos := h.tree.pos
  root := h.tree.root
  next_lt n hn c m hm := by
    obtain ⟨m', hm', hnext, -⟩ := h.findNextState_spec hn c
    cases hnext.symm.trans hm
    exact hm'
  next n hn c := by
    obtain ⟨m, -, hnext, hpath⟩ := h.findNextState_spec hn c
    rw [hnext, map_some, hpath, wordStep, hleft, if_neg Bool.false_ne_true]
  output n hn := by rw [h.output n hn, HasOutput, hleft, if_neg Bool.false_ne_true]
  endids := h.endids

/-- The graph behind the FSM of `re_strings_build`: the trie, after the failure pass if there is
one. -/
theorem exists_converted (E : List TrieEntry) (flags : ReStringsFlags) :
    ∃ g path node, Spelled g E flags path ∧
      Converted g flags.haveEnd (reStringsBuild (trieOf E) flags) node := by
  obtain ⟨path, hspells⟩ := spells_trieOf E
  obtain ⟨g, hg, hspelled⟩ : ∃ g, (if flags.anchorLeft then trieOf E
      else trieAddFailureEdges (trieOf E)) = g ∧ Spelled g E flags path := by
    refine ⟨_, rfl, ?_⟩
    split
    · rename_i hleft
      exact hspells.spelled hleft
    · rename_i hleft
      exact hspells.linked.spelled (Bool.eq_false_iff.mpr hleft)
  refine ⟨g, path, ?_⟩
  unfold reStringsBuild
  rw [hg]
  split
  · rename_i hend
    obtain ⟨node, hnode⟩ :=
      trieToFsm_converted hspelled.pos hspelled.next_lt endBase_singleEndFsm
    exact ⟨node, hspelled, hend ▸ hnode⟩
  · rename_i hend
    obtain ⟨node, hnode⟩ :=
      trieToFsm_converted hspelled.pos hspelled.next_lt (endBase_fsmNew (2 ^ 32 - 1))
    exact ⟨node, hspelled, Bool.eq_false_iff.mpr hend ▸ hnode⟩

namespace Spelled

variable {g : TrieGraph} {path : ℕ → List Byte} (h : Spelled g E flags path)
include h

open Classical in
/-- A trie state collapses where its prefix does. -/
theorem map_position {n : ℕ} (hn : n < g.nstates) :
    (g.position flags.haveEnd n).map path = absorbAt (WordCollapses E flags) (path n) := by
  have hiff : g.collapses flags.haveEnd n = true ↔ WordCollapses E flags (path n) := by
    rw [TrieGraph.collapses, Bool.and_eq_true, Bool.and_eq_true, stateSetEmpty_eq_true_iff,
      h.output n hn]
    simp only [h.endids n hn, WordCollapses]
    tauto
  unfold TrieGraph.position absorbAt
  by_cases hc : WordCollapses E flags (path n)
  · rw [if_pos (hiff.mpr hc), if_pos hc, map_none]
  · rw [if_neg fun h => hc (hiff.mp h), if_neg hc, map_some]

open Classical in
theorem map_move {b : Option ℕ} (hb : ∀ n, b = some n → n < g.nstates) (c : Byte) :
    (g.move flags.haveEnd b c).map (Option.map path) =
      absorb (wordStep E flags) (WordCollapses E flags) (b.map path) c := by
  rcases b with _ | n
  · rfl
  · have hn := hb n rfl
    rw [TrieGraph.move, map_some, absorb, ← h.next n hn]
    rcases hnext : findNextState g n c with _ | m
    · rfl
    · simp only [map_some]
      rw [h.map_position (h.next_lt n hn c m hnext)]

end Spelled

open Classical in
/-- **The FSM of `re_strings_build` is the machine on words.** -/
theorem reStringsBuild_words (E : List TrieEntry) (flags : ReStringsFlags) :
    (reStringsBuild (trieOf E) flags).IsDfa ∧ ∃ val : ℕ → Option (List Byte),
      Realises (reStringsBuild (trieOf E) flags).toNfa
        {s | s < (reStringsBuild (trieOf E) flags).statecount}
        (absorb (wordStep E flags) (WordCollapses E flags))
        (absorbAt (WordCollapses E flags) []) val ∧
      ∀ s < (reStringsBuild (trieOf E) flags).statecount,
        ((reStringsBuild (trieOf E) flags).IsEnd s ↔
          ∀ u, val s = some u → HasOutput E flags u) ∧
        ∀ i, i ∈ (reStringsBuild (trieOf E) flags).endidInfo.get s ↔
          ∃ u, val s = some u ∧ (u, some i) ∈ E := by
  obtain ⟨g, path, node, hspelled, hconv⟩ := exists_converted E flags
  refine ⟨hconv.isDfa, fun s => (node s).map path, ?_, ?_⟩
  -- moves between trie states are moves between their prefixes
  · have hr := hconv.realises
    refine ⟨hr.eps, ?_, hr.start_nonempty, ?_, ?_⟩
    · intro s hs
      obtain ⟨hmem, hval⟩ := hr.start s hs
      refine ⟨hmem, ?_⟩
      rw [hval, hspelled.map_position hspelled.pos, hspelled.root]
    · intro s hs c t ht
      obtain ⟨hmem, hstep⟩ := hr.step s hs c t ht
      refine ⟨hmem, ?_⟩
      rw [← hspelled.map_move (fun n => hconv.node_lt), hstep, map_some]
    · intro s hs c b hb
      rw [← hspelled.map_move (fun n => hconv.node_lt)] at hb
      obtain ⟨b', hb', -⟩ := Option.map_eq_some_iff.mp hb
      exact hr.exists_step s hs c b' hb'
  · intro s hs
    constructor
    · rw [hconv.isEnd s hs]
      constructor
      · intro h u hu
        obtain ⟨n, hn, rfl⟩ := Option.map_eq_some_iff.mp hu
        exact (hspelled.output n (hconv.node_lt hn)).mp (h n hn)
      · intro h n hn
        exact (hspelled.output n (hconv.node_lt hn)).mpr (h _ (congrArg (Option.map path) hn))
    · intro i
      rw [hconv.endids s hs]
      constructor
      · rintro ⟨n, hn, _, hi⟩
        exact ⟨path n, congrArg (Option.map path) hn,
          (hspelled.endids n (hconv.node_lt hn) i).mp hi⟩
      · rintro ⟨u, hu, hi⟩
        obtain ⟨n, hn, rfl⟩ := Option.map_eq_some_iff.mp hu
        have hlt := hconv.node_lt hn
        exact ⟨n, hn, (hspelled.output n hlt).mpr (Listed.hasOutput ⟨_, hi, rfl⟩),
          (hspelled.endids n hlt i).mpr hi⟩

open Classical in
theorem runFrom_machine (E : List TrieEntry) (flags : ReStringsFlags) (w : List Byte) :
    runFrom (absorb (wordStep E flags) (WordCollapses E flags))
        (absorbAt (WordCollapses E flags) []) w =
      if ∃ p, p <+: w ∧ ∃ u, wordRun E flags p = some u ∧ WordCollapses E flags u then some none
      else (wordRun E flags w).map some :=
  runFrom_absorb (wordStep E flags) (WordCollapses E flags) [] w

/-- What the FSM accepts: a prefix of the word reaches a collapsed prefix, or the word itself
reaches one with an output. -/
theorem mem_language_reStringsBuild :
    w ∈ (reStringsBuild (trieOf E) flags).language ↔
      (∃ p, p <+: w ∧ ∃ u, wordRun E flags p = some u ∧ WordCollapses E flags u) ∨
        ∃ u, wordRun E flags w = some u ∧ HasOutput E flags u := by
  classical
  obtain ⟨-, val, hreal, hstates⟩ := reStringsBuild_words E flags
  rw [Fsm.mem_language_iff]
  constructor
  · intro ⟨s, hs, hend⟩
    obtain ⟨hlt, hval⟩ := hreal.run_of_active hs
    rw [runFrom_machine] at hval
    split at hval
    · rename_i hhit
      exact .inl hhit
    · obtain ⟨u, hu, hval⟩ := Option.map_eq_some_iff.mp hval
      exact .inr ⟨u, hu, ((hstates s hlt).1.mp hend) u hval.symm⟩
  · intro h
    obtain ⟨b, hb, hout⟩ : ∃ b, runFrom (absorb (wordStep E flags) (WordCollapses E flags))
        (absorbAt (WordCollapses E flags) []) w = some b ∧
        ∀ u, b = some u → HasOutput E flags u := by
      rw [runFrom_machine]
      split
      · exact ⟨none, rfl, fun u hu => absurd hu.symm (some_ne_none u)⟩
      · rename_i hhit
        obtain ⟨u, hu, hout⟩ := h.resolve_left hhit
        refine ⟨some u, by rw [hu, map_some], ?_⟩
        rintro u' ⟨rfl⟩
        exact hout
    obtain ⟨s, hs, rfl⟩ := hreal.exists_active hb
    exact ⟨s, hs, ((hstates s (hreal.run_of_active hs).1).1).mpr hout⟩

/-- What it reports: the end IDs of the prefix reached, unless the word went through a
collapsed one. -/
theorem mem_endIdsAfter_reStringsBuild {i : ℕ} :
    i ∈ (reStringsBuild (trieOf E) flags).endIdsAfter w ↔
      (¬ ∃ p, p <+: w ∧ ∃ u, wordRun E flags p = some u ∧ WordCollapses E flags u) ∧
        ∃ u, wordRun E flags w = some u ∧ (u, some i) ∈ E := by
  classical
  obtain ⟨-, val, hreal, hstates⟩ := reStringsBuild_words E flags
  constructor
  · intro ⟨s, hs, _, hi⟩
    obtain ⟨hlt, hval⟩ := hreal.run_of_active hs
    obtain ⟨u, hu, hmem⟩ := ((hstates s hlt).2 i).mp hi
    rw [runFrom_machine, hu] at hval
    split at hval
    · exact absurd (Option.some.inj hval) (some_ne_none u).symm
    · rename_i hhit
      obtain ⟨u', hu', hval⟩ := Option.map_eq_some_iff.mp hval
      obtain rfl := Option.some.inj hval
      exact ⟨hhit, u', hu', hmem⟩
  · intro ⟨hhit, u, hu, hmem⟩
    have hb : runFrom (absorb (wordStep E flags) (WordCollapses E flags))
        (absorbAt (WordCollapses E flags) []) w = some (some u) := by
      rw [runFrom_machine, if_neg hhit, hu, map_some]
    obtain ⟨s, hs, hval⟩ := hreal.exists_active hb
    obtain ⟨hend, hids⟩ := hstates s (hreal.run_of_active hs).1
    refine ⟨s, hs, hend.mpr ?_, (hids i).mpr ⟨u, hval, hmem⟩⟩
    intro u' hu'
    cases hval.symm.trans hu'
    exact Listed.hasOutput ⟨_, hmem, rfl⟩

/-! ## §2 Outputs And Suffixes -/

/-- Some string is a suffix of `u`. -/
def Suffixed (E : List TrieEntry) (u : List Byte) : Prop := ∃ e ∈ E, e.1 <:+ u

/-- Some string occurs in `u`. -/
def Occurs (E : List TrieEntry) (u : List Byte) : Prop := ∃ e ∈ E, e.1 <:+: u

instance (E : List TrieEntry) (u : List Byte) : Decidable (Suffixed E u) :=
  inferInstanceAs (Decidable (∃ e ∈ E, e.1 <:+ u))

instance (E : List TrieEntry) (u : List Byte) : Decidable (Occurs E u) :=
  inferInstanceAs (Decidable (∃ e ∈ E, e.1 <:+: u))

theorem Listed.suffixed (h : Listed E u) : Suffixed E u := by
  obtain ⟨e, he, rfl⟩ := h
  exact ⟨e, he, suffix_rfl⟩

theorem node_of_mem {e : TrieEntry} (he : e ∈ E) : Node E e.1 :=
  Listed.node ⟨e, he, rfl⟩

/-- A string is a suffix of a word if it is one of the word's longest suffix. -/
theorem suffixed_longestSuffix : Suffixed E (longestSuffix (Node E) w) ↔ Suffixed E w := by
  constructor
  · intro ⟨e, he, h⟩
    exact ⟨e, he, h.trans (longestSuffix_suffix _ w)⟩
  · intro ⟨e, he, h⟩
    exact ⟨e, he, suffix_longestSuffix (node_of_mem he) h⟩

theorem suffixed_iff_border : Suffixed E u ↔ Listed E u ∨ Suffixed E (border (Node E) u) := by
  constructor
  · intro ⟨e, he, h⟩
    rcases (suffix_iff_border (node_of_mem he)).mp h with h | h
    · exact .inl ⟨e, he, h⟩
    · exact .inr ⟨e, he, h⟩
  · rintro (h | ⟨e, he, h⟩)
    · exact h.suffixed
    · exact ⟨e, he, h.trans (border_suffix _ u)⟩

/-- An output is never handed to a prefix without any string in it. -/
theorem Marked.occurs (h : Marked E u) : Occurs E u := by
  induction h with
  | word h =>
    obtain ⟨e, he, rfl⟩ := h
    exact ⟨e, he, infix_rfl⟩
  | @stem u _ _ ih =>
    obtain ⟨e, he, h⟩ := ih
    have hstem : (border (Node E) u).dropLast <+: border (Node E) u := dropLast_prefix _
    exact ⟨e, he, (h.trans hstem.isInfix).trans (border_suffix _ u).isInfix⟩

theorem occurs_iff_suffixed : Occurs E w ↔ ∃ p, p <+: w ∧ Suffixed E p := by
  constructor
  · intro ⟨e, he, h⟩
    obtain ⟨p, hsuf, hpre⟩ := infix_iff_suffix_prefix.mp h
    exact ⟨p, hpre, e, he, hsuf⟩
  · intro ⟨p, hp, e, he, h⟩
    exact ⟨e, he, h.isInfix.trans hp.isInfix⟩

/-- For every prefix of a string that is no string itself, dropping the last symbol of its
border makes no difference to whether a string is a suffix; and no such prefix has one symbol
if the empty string is in the set. -/
def OutputsAgree (E : List TrieEntry) : Prop :=
  ∀ e ∈ E, ∀ u ∈ e.1.inits, u ≠ [] → ¬ Listed E u →
    if u.length = 1 then ¬ Listed E []
    else (Suffixed E (border (Node E) u).dropLast ↔ Suffixed E (border (Node E) u))

/-- Where a string ends within another for the first time, a string is spelled. -/
def FirstHitsListed (E : List TrieEntry) : Prop :=
  ∀ e ∈ E, ∀ u ∈ e.1.inits, Suffixed E u → Listed E u ∨ Occurs E u.dropLast

instance (E : List TrieEntry) : Decidable (OutputsAgree E) :=
  inferInstanceAs (Decidable (∀ e ∈ E, ∀ u ∈ e.1.inits, u ≠ [] → ¬ Listed E u →
    if u.length = 1 then ¬ Listed E []
    else (Suffixed E (border (Node E) u).dropLast ↔ Suffixed E (border (Node E) u))))

instance (E : List TrieEntry) : Decidable (FirstHitsListed E) :=
  inferInstanceAs (Decidable (∀ e ∈ E, ∀ u ∈ e.1.inits,
    Suffixed E u → Listed E u ∨ Occurs E u.dropLast))

/-- A prefix other than the empty one is a prefix of a string. -/
theorem Node.exists_inits (h : Node E u) (hne : u ≠ []) : ∃ e ∈ E, u ∈ e.1.inits := by
  obtain ⟨e, he, hu⟩ := h.resolve_left hne
  exact ⟨e, he, (mem_inits u e.1).mpr hu⟩

theorem node_of_mem_inits {e : TrieEntry} (he : e ∈ E) (hu : u ∈ e.1.inits) : Node E u :=
  .inr ⟨e, he, (mem_inits u e.1).mp hu⟩

theorem node_stem (u : List Byte) : Node E (border (Node E) u).dropLast := by
  have hT := prefixClosed_node E
  obtain ⟨t, ht⟩ := dropLast_prefix (border (Node E) u)
  exact hT.of_append (ht.symm ▸ hT.mem_border u)

theorem length_stem_lt (h : u ≠ []) : (border (Node E) u).dropLast.length < u.length := by
  have hlt := length_border_lt (Node E) h
  rw [length_dropLast]
  omega

/-- **The outputs handed on are right for all prefixes** exactly when the condition holds. -/
theorem forall_marked_iff :
    (∀ u, Node E u → (Marked E u ↔ Suffixed E u)) ↔ OutputsAgree E := by
  constructor
  · intro h e he u hu hne hnot
    have hnode := node_of_mem_inits he hu
    have hiff := h u hnode
    split
    · intro hnil
      -- the empty string is a suffix, but one symbol takes no output
      obtain ⟨e', he', hnil⟩ := hnil
      have hmark := hiff.mpr ⟨e', he', hnil ▸ nil_suffix⟩
      rcases marked_iff.mp hmark with hl | ⟨h2, -⟩
      · exact hnot hl
      · omega
    · have h2 : 2 ≤ u.length := by
        have := length_pos_iff.mpr hne
        omega
      rw [← h _ (node_stem u)]
      rw [marked_iff, suffixed_iff_border] at hiff
      simp only [hnot, false_or, h2, true_and] at hiff
      exact hiff
  · intro h u
    -- induction on the length; the stem is shorter
    induction hn : u.length using Nat.strong_induction_on generalizing u with
    | _ n ih =>
      intro hnode
      by_cases hl : Listed E u
      · exact iff_of_true (.word hl) hl.suffixed
      · by_cases hne : u = []
        · subst hne
          rw [marked_iff, suffixed_iff_border]
          refine iff_of_false ?_ ?_
          · simp [hl]
          · rintro (h' | ⟨e, he, h'⟩)
            · exact hl h'
            · exact hl ⟨e, he, suffix_nil.mp h'⟩
        · obtain ⟨e, he, hu⟩ := hnode.exists_inits hne
          have hcond := h e he u hu hne hl
          rw [marked_iff, suffixed_iff_border]
          simp only [hl, false_or]
          split at hcond
          · refine iff_of_false (fun h2 => by omega) ?_
            rintro ⟨e', he', h'⟩
            have hlt := length_border_lt (Node E) hne
            have hnil : border (Node E) u = [] := length_eq_zero_iff.mp (by omega)
            rw [hnil] at h'
            exact hcond ⟨e', he', suffix_nil.mp h'⟩
          · have h2 : 2 ≤ u.length := by
              have := length_pos_iff.mpr hne
              omega
            simp only [h2, true_and]
            rw [ih _ (hn ▸ length_stem_lt hne) _ rfl (node_stem u)]
            exact hcond

/-- The same for all words, by their longest suffixes. -/
theorem forall_suffix_hit_iff :
    (∀ w, Marked E (longestSuffix (Node E) w) ↔ Suffixed E w) ↔ OutputsAgree E := by
  rw [← forall_marked_iff]
  constructor
  · intro h u hu
    rw [← h u, longestSuffix_of_mem hu]
  · intro h w
    rw [h _ ((prefixClosed_node E).mem_longestSuffix w), suffixed_longestSuffix]

theorem Occurs.mono {v : List Byte} (h : Occurs E u) (huv : u <:+: v) : Occurs E v := by
  obtain ⟨e, he, h⟩ := h
  exact ⟨e, he, h.trans huv⟩

theorem occurs_nil_iff : Occurs E [] ↔ Listed E [] := by
  constructor
  · intro ⟨e, he, h⟩
    exact ⟨e, he, infix_nil.mp h⟩
  · intro ⟨e, he, h⟩
    exact ⟨e, he, h ▸ infix_rfl⟩

/-- Helper: a suffix without its last symbol occurs before the last symbol of the word. -/
private theorem dropLast_infix_of_suffix {v : List Byte} (h : v <:+ u) :
    v.dropLast <:+: u.dropLast := by
  obtain ⟨t, rfl⟩ := h
  by_cases hv : v = []
  · rw [hv]
    exact nil_infix
  · rw [dropLast_append_of_ne_nil hv]
    exact (suffix_append t v.dropLast).isInfix

/-- **The first hits are right for all words** exactly when the condition holds. -/
theorem forall_first_hit_iff :
    (∀ w, (∃ p, p <+: w ∧ Marked E (longestSuffix (Node E) p)) ↔ Occurs E w) ↔
      FirstHitsListed E := by
  constructor
  · intro h e he u hu hsuf
    have hnode := node_of_mem_inits he hu
    obtain ⟨p, hp, hmark⟩ := (h u).mpr (occurs_iff_suffixed.mpr ⟨u, prefix_rfl, hsuf⟩)
    rcases eq_nil_or_concat u with rfl | ⟨v, c, rfl⟩
    · rw [prefix_nil.mp hp] at hmark
      exact .inl (occurs_nil_iff.mp hmark.occurs)
    · rw [concat_eq_append] at *
      rw [dropLast_concat]
      rcases prefix_concat_iff.mp hp with rfl | hp
      · -- the output of the prefix itself: its own, or one handed on from inside it
        rw [longestSuffix_of_mem hnode] at hmark
        rcases marked_iff.mp hmark with hl | ⟨-, hstem⟩
        · exact .inl hl
        · have hdrop := dropLast_infix_of_suffix (border_suffix (Node E) (v ++ [c]))
          rw [dropLast_concat] at hdrop
          exact .inr (hstem.occurs.mono hdrop)
      · exact .inr ((hmark.occurs.mono (longestSuffix_suffix _ p).isInfix).mono hp.isInfix)
  · intro h w
    constructor
    · intro ⟨p, hp, hmark⟩
      exact (hmark.occurs.mono (longestSuffix_suffix _ p).isInfix).mono hp.isInfix
    · -- by induction on the word: the first hit is at its end, or earlier
      induction w using List.reverseRecOn with
      | nil =>
        intro hocc
        exact ⟨[], prefix_rfl, .word (occurs_nil_iff.mp hocc)⟩
      | append_singleton w c ih =>
        intro hocc
        by_cases hw : Occurs E w
        · obtain ⟨p, hp, hmark⟩ := ih hw
          exact ⟨p, hp.trans (prefix_append w [c]), hmark⟩
        · obtain ⟨p, hp, hsuf⟩ := occurs_iff_suffixed.mp hocc
          obtain rfl : p = w ++ [c] := by
            rcases prefix_concat_iff.mp hp with hp | hp
            · exact hp
            · exact absurd (occurs_iff_suffixed.mpr ⟨p, hp, hsuf⟩) hw
          refine ⟨w ++ [c], prefix_rfl, ?_⟩
          have hsuf' := suffixed_longestSuffix.mpr hsuf
          have hdrop := dropLast_infix_of_suffix (longestSuffix_suffix (Node E) (w ++ [c]))
          have hnode := (prefixClosed_node E).mem_longestSuffix (w ++ [c])
          rw [dropLast_concat] at hdrop
          generalize longestSuffix (Node E) (w ++ [c]) = u at *
          by_cases hne : u = []
          · subst hne
            obtain ⟨e, he, h'⟩ := hsuf'
            exact .word ⟨e, he, suffix_nil.mp h'⟩
          · obtain ⟨e, he, hu⟩ := hnode.exists_inits hne
            rcases h e he u hu hsuf' with hl | hocc'
            · exact .word hl
            · exact absurd (hocc'.mono hdrop) hw

/-! ## §3 Strings Without End IDs -/

/-- The flags with the two anchors as given. -/
def anchors (left right : Bool) : ReStringsFlags := { anchorLeft := left, anchorRight := right }

/-- What the anchors ask of a string and a word. -/
def ReStringsFlags.Matches (flags : ReStringsFlags) (x w : List Byte) : Prop :=
  match flags.anchorLeft, flags.anchorRight with
  | true, true => x = w
  | true, false => x <+: w
  | false, true => x <:+ w
  | false, false => x <:+: w

/-- The entries of strings that are added without end IDs. -/
def plainEntries (words : List (List Byte)) : List TrieEntry := words.map fun x => (x, none)

/-- The string sets whose FSM is right, for each choice of anchors. -/
def StringsSupported (flags : ReStringsFlags) (words : List (List Byte)) : Prop :=
  match flags.anchorLeft, flags.anchorRight with
  | true, _ => True
  | false, true => OutputsAgree (plainEntries words)
  | false, false => FirstHitsListed (plainEntries words)

instance (flags : ReStringsFlags) (words : List (List Byte)) :
    Decidable (StringsSupported flags words) := by
  unfold StringsSupported
  cases flags.anchorLeft <;> cases flags.anchorRight <;> infer_instance

theorem listed_plainEntries : Listed (plainEntries words) u ↔ u ∈ words := by
  simp [Listed, plainEntries]

theorem suffixed_plainEntries : Suffixed (plainEntries words) u ↔ ∃ x ∈ words, x <:+ u := by
  simp [Suffixed, plainEntries]

theorem occurs_plainEntries : Occurs (plainEntries words) u ↔ ∃ x ∈ words, x <:+: u := by
  simp [Occurs, plainEntries]

theorem wordCollapses_plainEntries :
    WordCollapses (plainEntries words) flags u ↔
      flags.haveEnd = true ∧ HasOutput (plainEntries words) flags u := by
  simp [WordCollapses, plainEntries]

/-- What the FSM of a plain string set accepts. -/
theorem mem_language_plain {left right : Bool} :
    w ∈ (reStringsBuild (trieOf (plainEntries words)) (anchors left right)).language ↔
      ∃ p, (if right then p = w else p <+: w) ∧
        ∃ u, wordRun (plainEntries words) (anchors left right) p = some u ∧
          HasOutput (plainEntries words) (anchors left right) u := by
  rw [mem_language_reStringsBuild]
  simp only [wordCollapses_plainEntries, ReStringsFlags.haveEnd, anchors, Bool.not_false,
    Bool.true_and, Bool.not_eq_true']
  cases right
  · simp only [true_and, if_false, Bool.false_eq_true]
    constructor
    · rintro (h | ⟨u, hu⟩)
      · exact h
      · exact ⟨w, prefix_rfl, u, hu⟩
    · exact .inl
  · simp

/-- **What a string set matches.**  The FSM is always deterministic.  With the left anchor it
accepts what it should; without it, exactly for the string sets of `StringsSupported`. -/
theorem reStringsBuild_matches_iff (words : List (List Byte)) (left right : Bool) :
    ((reStringsBuild (trieOf (plainEntries words)) (anchors left right)).IsDfa ∧
      ∀ w, w ∈ (reStringsBuild (trieOf (plainEntries words)) (anchors left right)).language ↔
        ∃ x ∈ words, (anchors left right).Matches x w) ↔
      StringsSupported (anchors left right) words := by
  rw [and_iff_right (reStringsBuild_words _ _).1]
  simp only [mem_language_plain]
  unfold anchors
  cases left with
  | false =>
    have hrun : ∀ p, wordRun (plainEntries words) ⟨false, right, false⟩ p =
        some (longestSuffix (Node (plainEntries words)) p) := wordRun_unanchored rfl
    simp only [hrun, HasOutput, Bool.false_eq_true, if_false, Option.some.injEq, exists_eq_left']
    cases right with
    | false =>
      simp only [StringsSupported, ReStringsFlags.Matches, ← forall_first_hit_iff,
        occurs_plainEntries, Bool.false_eq_true, if_false]
    | true =>
      simp only [StringsSupported, ReStringsFlags.Matches, ← forall_suffix_hit_iff,
        suffixed_plainEntries, if_true, exists_eq_left]
  | true =>
    have hrun : ∀ p, (∃ u, wordRun (plainEntries words) ⟨true, right, false⟩ p = some u ∧
        HasOutput (plainEntries words) ⟨true, right, false⟩ u) ↔ p ∈ words := by
      intro p
      rw [wordRun_left rfl, ← listed_plainEntries]
      constructor
      · rintro ⟨u, hu, hout⟩
        split at hu
        · cases hu
          exact hout
        · cases hu
      · intro hl
        exact ⟨p, by rw [if_pos hl.node], hl⟩
    simp only [hrun, StringsSupported, iff_true]
    intro w
    cases right with
    | false =>
      exact exists_congr fun p => and_comm
    | true => simp [ReStringsFlags.Matches]

/-- The strings `abc` and `b`, without anchors: `b` occurs in `ab`, but the state for `ab`
takes its output from the root and has none. -/
theorem reStringsBuild_misses_suffix :
    [97, 98] ∉ (reStringsBuild (trieOf (plainEntries [[97, 98, 99], [98]]))
      (anchors false false)).language ∧
    ∃ x ∈ [[97, 98, 99], [(98 : Byte)]], (anchors false false).Matches x [97, 98] := by
  refine ⟨?_, [98], by simp, [97], [], rfl⟩
  have hstart : (reStringsBuild (trieOf (plainEntries [[97, 98, 99], [98]]))
      (anchors false false)).start = some 1 := by decide +kernel
  have hrun : (reStringsBuild (trieOf (plainEntries [[97, 98, 99], [98]]))
      (anchors false false)).runFrom 1 [97, 98] = some 3 := by decide +kernel
  have hend : ¬ (reStringsBuild (trieOf (plainEntries [[97, 98, 99], [98]]))
      (anchors false false)).IsEnd 3 := by decide +kernel
  rw [(reStringsBuild_words _ _).1.mem_language_iff hstart, hrun]
  rintro ⟨s, ⟨rfl⟩, hs⟩
  exact hend hs

end Libfsm
