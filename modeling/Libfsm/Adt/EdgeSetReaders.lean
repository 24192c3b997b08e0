import Libfsm.Adt.EdgeSet
import Libfsm.Lib.Iterators

/-!
# The Readers Of Edge Sets

The iterators of `adt/edgeset.c` as they are called, one edge or group at a time, with the state
that is kept between two calls and the loops that skip empty words of 64 labels.

- `edgeSetNext`: group by group
- `edgeSetOrderedIterNext`: label by label
- `edgeSetGroupIterNext`: whole groups, in the modes `ALL` and `UNIQUE`
- `edgeSetCount`: the number of edges
- `readersAgree_iff`: all of them enumerate the edges, each edge once, as long as destinations fit
  the 24 bits of `struct fsm_edge`
-/

namespace Libfsm

open Lib
open List hiding set nil cons all after next count

variable {j : ℕ} {set : EdgeSet}

/-! ## §1 Words -/

/-- `symbols[w]` -/
def symbolsWord (sy : Symbols) (w : ℕ) : BitVec 64 := sy.extractLsb' (64 * w) 64

theorem getLsbD_eq_false_of_word {sy : Symbols} {i : ℕ} (hj : j % 64 = 0)
    (hword : symbolsWord sy (j / 64) = 0) (hji : j ≤ i) (hi : i < j + 64) :
    sy.getLsbD i = false := by
  have hbit : (symbolsWord sy (j / 64)).getLsbD (i - j) = false := by
    rw [hword]
    simp
  rw [symbolsWord] at hbit
  have hlt : i - j < 64 := by omega
  have hindex : 64 * (j / 64) + (i - j) = i := by omega
  simpa [hlt, hindex] using hbit

/-- The labels from `j` on. -/
def labelsFrom (sy : Symbols) (j : ℕ) : List Byte :=
  ((range' j (256 - j)).filter sy.getLsbD).map (Fin.ofNat 256)

theorem labelsFrom_of_le (sy : Symbols) (h : 256 ≤ j) : labelsFrom sy j = [] := by
  simp [labelsFrom, Nat.sub_eq_zero_of_le h]

theorem labelsFrom_of_lt (sy : Symbols) (h : j < 256) : labelsFrom sy j =
    if sy.getLsbD j then Fin.ofNat 256 j :: labelsFrom sy (j + 1) else labelsFrom sy (j + 1) := by
  have hsub : 256 - j = (256 - (j + 1)) + 1 := by omega
  rw [labelsFrom, labelsFrom, hsub, List.range'_succ, filter_cons]
  split <;> simp

theorem labelsFrom_skip {sy : Symbols} (h : j < 256) (hj : j % 64 = 0)
    (hword : symbolsWord sy (j / 64) = 0) : labelsFrom sy j = labelsFrom sy (j + 64) := by
  have hsub : 256 - j = 64 + (256 - (j + 64)) := by omega
  have hnone : (range' j 64).filter sy.getLsbD = [] := by
    rw [filter_eq_nil_iff]
    intro i hi
    rw [mem_range'_1] at hi
    rw [getLsbD_eq_false_of_word hj hword hi.1 hi.2]
    exact Bool.false_ne_true
  rw [labelsFrom, labelsFrom, hsub, ← List.range'_append, filter_append, hnone, nil_append]

theorem labelsFrom_zero (sy : Symbols) :
    labelsFrom sy 0 = (finRange 256).filter fun c : Byte => sy.getLsbD c := by
  apply map_injective_iff.mpr Fin.val_injective
  have hval : ∀ i ∈ (range' 0 256).filter sy.getLsbD, (Fin.ofNat 256 i).val = i := by
    intro i hi
    have := mem_range'_1.mp (mem_filter.mp hi).1
    exact Nat.mod_eq_of_lt (by omega)
  have hfilter : ((finRange 256).filter fun c : Byte => sy.getLsbD c).map Fin.val =
      ((finRange 256).map Fin.val).filter sy.getLsbD := by
    rw [filter_map]
    rfl
  rw [labelsFrom, map_map, hfilter, map_coe_finRange_eq_range, range_eq_range']
  conv_rhs => rw [← map_id (List.filter _ _)]
  exact map_congr_left hval

/-! ## §2 Edge By Edge -/

/-- The loop of `edge_set_next` inside of a group: the next label from `j` on. -/
def nextSymbol (sy : Symbols) : ℕ → ℕ → Option ℕ
  | 0, _ => none
  | fuel + 1, j =>
    if 256 ≤ j then none
    else if j % 64 = 0 ∧ symbolsWord sy (j / 64) = 0 then nextSymbol sy fuel (j + 64)
    else if sy.getLsbD j then some j
    else nextSymbol sy fuel (j + 1)

/-- The loop finds the first label. -/
theorem nextSymbol_spec (sy : Symbols) (fuel j : ℕ) (hfuel : 256 - j < fuel) :
    (nextSymbol sy fuel j = none ∧ labelsFrom sy j = []) ∨ ∃ i, nextSymbol sy fuel j = some i ∧
      labelsFrom sy j = Fin.ofNat 256 i :: labelsFrom sy (i + 1) := by
  induction fuel generalizing j with
  | zero => cases hfuel
  | succ fuel ih =>
    rw [nextSymbol]
    split
    · rename_i hge
      exact .inl ⟨rfl, labelsFrom_of_le sy hge⟩
    · rename_i hlt
      have hlt : j < 256 := Nat.lt_of_not_le hlt
      split
      · rename_i hskip
        rw [labelsFrom_skip hlt hskip.1 hskip.2]
        exact ih (j + 64) (by omega)
      · rw [labelsFrom_of_lt sy hlt]
        split
        · exact .inr ⟨j, rfl, rfl⟩
        · exact ih (j + 1) (by omega)

/-- `struct edge_iter`, without the set. -/
structure EdgeIter where
  i : ℕ := 0
  j : ℕ := 0
  deriving DecidableEq, Repr

/-- The edge handed back for a group: the destination is cut to 24 bits. -/
def EdgeGroup.edge (g : EdgeGroup) (c : Byte) : FsmEdge := ⟨BitVec.ofNat 24 g.toState, c⟩

/-- The loop of `edge_set_next` over the groups from `i` on. -/
def edgeSetNextFrom : List EdgeGroup → ℕ → ℕ → Option (FsmEdge × EdgeIter)
  | [], _, _ => none
  | g :: gs, i, j =>
    match nextSymbol g.symbols 257 j with
    | some j' => some (g.edge (Fin.ofNat 256 j'), { i := i, j := j' + 1 })
    | none => edgeSetNextFrom gs (i + 1) 0

def edgeSetNext (set : EdgeSet) (it : EdgeIter) : Option (FsmEdge × EdgeIter) :=
  edgeSetNextFrom (set.groups.drop it.i) it.i it.j

/-- The edges from a label of the first group on. -/
def edgesFrom : List EdgeGroup → ℕ → List FsmEdge
  | [], _ => []
  | g :: gs, j => (labelsFrom g.symbols j).map g.edge ++ edgesFrom gs 0

theorem edgesFrom_zero (gs : List EdgeGroup) :
    edgesFrom gs 0 = gs.flatMap fun g => g.labels.map g.edge := by
  induction gs with
  | nil => rfl
  | cons g gs ih =>
    rw [edgesFrom, ih, labelsFrom_zero]
    rfl

theorem edgeSetNextFrom_spec (gs : List EdgeGroup) (i j : ℕ) :
    (edgeSetNextFrom gs i j = none ∧ edgesFrom gs j = []) ∨
      ∃ e k j', edgeSetNextFrom gs i j = some (e, ⟨i + k, j'⟩) ∧
        edgesFrom gs j = e :: edgesFrom (gs.drop k) j' := by
  induction gs generalizing i j with
  | nil => exact .inl ⟨rfl, rfl⟩
  | cons g gs ih =>
    rw [edgeSetNextFrom, edgesFrom]
    rcases nextSymbol_spec g.symbols 257 j (by omega) with ⟨hnone, hnil⟩ | ⟨i', hsome, hcons⟩
    · rw [hnone, hnil]
      rcases ih (i + 1) 0 with hend | ⟨e, k, j', hnext, hrest⟩
      · exact .inl hend
      · refine .inr ⟨e, k + 1, j', ?_, hrest⟩
        rw [hnext, add_right_comm, add_assoc]
    · rw [hsome, hcons]
      exact .inr ⟨_, 0, i' + 1, rfl, rfl⟩

/-- What an iterator has not seen yet of a set. -/
def edgesLeft (set : EdgeSet) (it : EdgeIter) : List FsmEdge :=
  edgesFrom (set.groups.drop it.i) it.j

/-- One call takes the first of the edges that are left. -/
theorem edgeSetNext_spec (set : EdgeSet) (it : EdgeIter) :
    (edgeSetNext set it = none ∧ edgesLeft set it = []) ∨
      ∃ e it', edgeSetNext set it = some (e, it') ∧ edgesLeft set it = e :: edgesLeft set it' := by
  rcases edgeSetNextFrom_spec (set.groups.drop it.i) it.i it.j with hend | ⟨e, k, j', hnext, hrest⟩
  · exact .inl hend
  · refine .inr ⟨e, ⟨it.i + k, j'⟩, hnext, ?_⟩
    rw [edgesLeft, hrest, drop_drop]
    rfl

/-- **`edge_set_next`**, called until there are no more edges. -/
theorem yields_edgeSetNext (set : EdgeSet) :
    Yields (edgeSetNext set) {} (edgeSetEdges set) := by
  have hall : edgeSetEdges set = edgesLeft set {} := (edgesFrom_zero set.groups).symm
  rw [hall]
  apply yields_of_rest (fun _ => True) (edgesLeft set)
  · intro it _
    rcases edgeSetNext_spec set it with hend | ⟨e, it', hnext, hrest⟩
    · exact .inl hend
    · exact .inr ⟨e, it', hnext, hrest, trivial⟩
  · trivial

/-! ## §3 In Order Of Labels -/

/-- `struct edge_ordered_iter`, the fields that are used. -/
structure EdgeOrderedIter where
  pos : ℕ := 0
  symbol : ℕ := 0
  deriving DecidableEq, Repr

/-- The inner loop: the next group from `pos` on with the symbol. -/
def orderedScan (symbol : ℕ) : List EdgeGroup → ℕ → Option (EdgeGroup × ℕ)
  | [], _ => none
  | g :: gs, pos => if g.symbols.getLsbD symbol then some (g, pos + 1)
    else orderedScan symbol gs (pos + 1)

/-- The loop over the symbols, `fuel` of which are left. -/
def orderedNextFrom (groups : List EdgeGroup) : ℕ → EdgeOrderedIter →
    Option (FsmEdge × EdgeOrderedIter)
  | fuel, it =>
    match orderedScan it.symbol (groups.drop it.pos) it.pos with
    | some (g, pos) => some (g.edge (Fin.ofNat 256 it.symbol), { it with pos := pos })
    | none =>
      match fuel with
      | 0 => none
      | fuel + 1 => orderedNextFrom groups fuel { pos := 0, symbol := it.symbol + 1 }

def edgeSetOrderedIterNext (set : EdgeSet) (it : EdgeOrderedIter) :
    Option (FsmEdge × EdgeOrderedIter) :=
  orderedNextFrom set.groups (255 - it.symbol) it

/-- The edges with one symbol. -/
def edgesOn (symbol : ℕ) (gs : List EdgeGroup) : List FsmEdge :=
  (gs.filter fun g => g.symbols.getLsbD symbol).map fun g => g.edge (Fin.ofNat 256 symbol)

theorem orderedScan_spec (symbol : ℕ) (gs : List EdgeGroup) (pos : ℕ) :
    (orderedScan symbol gs pos = none ∧ edgesOn symbol gs = []) ∨
      ∃ g k, orderedScan symbol gs pos = some (g, pos + k) ∧
        edgesOn symbol gs = g.edge (Fin.ofNat 256 symbol) :: edgesOn symbol (gs.drop k) := by
  induction gs generalizing pos with
  | nil => exact .inl ⟨rfl, rfl⟩
  | cons g gs ih =>
    rw [orderedScan, edgesOn, filter_cons]
    split
    · exact .inr ⟨g, 1, rfl, rfl⟩
    · rcases ih (pos + 1) with hend | ⟨g', k, hscan, hrest⟩
      · exact .inl hend
      · refine .inr ⟨g', k + 1, ?_, hrest⟩
        rw [hscan, add_right_comm, add_assoc]

/-- The edges from a position on. -/
def orderedEdgesFrom (groups : List EdgeGroup) (it : EdgeOrderedIter) : List FsmEdge :=
  edgesOn it.symbol (groups.drop it.pos) ++
    (range' (it.symbol + 1) (255 - it.symbol)).flatMap fun c => edgesOn c groups

theorem orderedNextFrom_spec (groups : List EdgeGroup) (fuel : ℕ) (it : EdgeOrderedIter)
    (hfuel : it.symbol + fuel = 255) :
    (orderedNextFrom groups fuel it = none ∧ orderedEdgesFrom groups it = []) ∨
      ∃ e it', orderedNextFrom groups fuel it = some (e, it') ∧
        orderedEdgesFrom groups it = e :: orderedEdgesFrom groups it' ∧ it'.symbol ≤ 255 := by
  induction fuel generalizing it with
  | zero =>
    rw [orderedNextFrom, orderedEdgesFrom]
    have hlast : 255 - it.symbol = 0 := by omega
    rcases orderedScan_spec it.symbol (groups.drop it.pos) it.pos with
      ⟨hnone, hnil⟩ | ⟨g, k, hscan, hrest⟩
    · rw [hnone, hnil, hlast]
      exact .inl ⟨rfl, rfl⟩
    · rw [hscan]
      refine .inr ⟨_, { it with pos := it.pos + k }, rfl, ?_, by dsimp only; omega⟩
      rw [hrest, drop_drop]
      rfl
  | succ fuel ih =>
    rw [orderedNextFrom, orderedEdgesFrom]
    rcases orderedScan_spec it.symbol (groups.drop it.pos) it.pos with
      ⟨hnone, hnil⟩ | ⟨g, k, hscan, hrest⟩
    · -- no group is left for this symbol; the next one starts from the first group
      have hnext : (range' (it.symbol + 1) (255 - it.symbol)).flatMap
          (fun c => edgesOn c groups) =
          orderedEdgesFrom groups { pos := 0, symbol := it.symbol + 1 } := by
        have hsub : 255 - it.symbol = (255 - (it.symbol + 1)) + 1 := by omega
        rw [hsub]
        rfl
      rw [hnone, hnil, hnext]
      exact ih { pos := 0, symbol := it.symbol + 1 } (by dsimp only; omega)
    · rw [hscan]
      refine .inr ⟨_, { it with pos := it.pos + k }, rfl, ?_, by dsimp only; omega⟩
      rw [hrest, drop_drop]
      rfl

theorem orderedEdgesFrom_reset (set : EdgeSet) :
    orderedEdgesFrom set.groups {} = edgeSetOrderedEdges set := by
  have hrange : (finRange 256).map Fin.val = 0 :: range' 1 255 := by
    rw [map_coe_finRange_eq_range, range_eq_range', List.range'_succ]
  have hflat : edgeSetOrderedEdges set = ((finRange 256).map Fin.val).flatMap
      fun c => edgesOn c set.groups := by
    rw [edgeSetOrderedEdges, flatMap_map]
    congr 1
    funext c
    rw [edgesOn]
    have hc : Fin.ofNat 256 c.val = c := Fin.ofNat_val_eq_self c
    rw [hc]
    rfl
  rw [hflat, hrange, flatMap_cons]
  rfl

/-- **`edge_set_ordered_iter_next`** from symbol 0, called until there are no more edges. -/
theorem yields_edgeSetOrderedIterNext (set : EdgeSet) :
    Yields (edgeSetOrderedIterNext set) {} (edgeSetOrderedEdges set) := by
  rw [← orderedEdgesFrom_reset]
  apply yields_of_rest (fun it => it.symbol ≤ 255) (orderedEdgesFrom set.groups)
  · intro it hit
    exact orderedNextFrom_spec set.groups (255 - it.symbol) it (by omega)
  · exact Nat.zero_le 255

/-! ## §4 Group By Group -/

/-- `enum edge_group_iter_type`, and the value the iterator uses between the two halves of a
group. -/
inductive EdgeGroupIterFlag where
  | all
  | unique
  | nonUnique
  deriving DecidableEq, Repr

/-- `struct edge_group_iter`, without the set. -/
structure EdgeGroupIter where
  i : ℕ := 0
  flag : EdgeGroupIterFlag
  /-- The labels of more than one group -/
  internal : Symbols := 0
  deriving DecidableEq

/-- `struct edge_group_iter_info`: `unique` is not written in the mode `ALL`. -/
structure EdgeGroupIterInfo where
  symbols : Symbols
  toState : ℕ
  unique : Option Bool
  deriving DecidableEq

/-- The loop over the labels of a group in `edge_set_group_iter_reset`, on `(seen, internal)`. -/
def markLoop (sy : Symbols) : ℕ → ℕ → Symbols × Symbols → Symbols × Symbols
  | 0, _, marks => marks
  | fuel + 1, j, (seen, internal) =>
    if 256 ≤ j then (seen, internal)
    else if j % 64 = 0 ∧ symbolsWord sy (j / 64) = 0 then markLoop sy fuel (j + 64) (seen, internal)
    else if sy.getLsbD j then
      if seen.getLsbD j then markLoop sy fuel (j + 1) (seen, internal ||| BitVec.twoPow 256 j)
      else markLoop sy fuel (j + 1) (seen ||| BitVec.twoPow 256 j, internal)
    else markLoop sy fuel (j + 1) (seen, internal)

def edgeSetGroupIterReset (set : EdgeSet) (flag : EdgeGroupIterFlag) : EdgeGroupIter where
  flag := flag
  internal := if flag = .unique then
      (set.groups.foldl (fun marks g => markLoop g.symbols 257 0 marks) (0, 0)).2
    else 0

/-- The body of `edge_set_group_iter_next`, on the groups from `it.i` on. -/
def edgeSetGroupIterFrom :
    List EdgeGroup → EdgeGroupIter → Option (EdgeGroupIterInfo × EdgeGroupIter)
  | [], _ => none
  | g :: gs, it =>
    if it.flag = .all then
      let after := { it with i := it.i + 1 }
      if g.symbols ≠ 0 then some (⟨g.symbols, g.toState, none⟩, after)
      else edgeSetGroupIterFrom gs after
    else
      let uniques := g.symbols &&& ~~~it.internal
      -- uniques first; if there are none, the other labels at once
      if it.flag = .unique ∧ uniques ≠ 0 then
        some (⟨uniques, g.toState, some true⟩, { it with flag := .nonUnique })
      else
        let after := { it with i := it.i + 1, flag := .unique }
        let others := g.symbols &&& it.internal
        if others ≠ 0 then some (⟨others, g.toState, some false⟩, after)
        else edgeSetGroupIterFrom gs after

def edgeSetGroupIterNext (set : EdgeSet) (it : EdgeGroupIter) :
    Option (EdgeGroupIterInfo × EdgeGroupIter) :=
  edgeSetGroupIterFrom (set.groups.drop it.i) it

/-! ### The labels of more than one group -/

theorem getLsbD_or_twoPow (sy : Symbols) (j c : ℕ) (hj : j < 256) :
    (sy ||| BitVec.twoPow 256 j).getLsbD c = (sy.getLsbD c || decide (j = c)) := by
  simp [hj]

theorem markLoop_spec (sy : Symbols) (fuel j : ℕ) (marks : Symbols × Symbols)
    (hfuel : 256 - j < fuel) (c : ℕ) (hc : c < 256) :
    (markLoop sy fuel j marks).1.getLsbD c =
        (marks.1.getLsbD c || (decide (j ≤ c) && sy.getLsbD c)) ∧
      (markLoop sy fuel j marks).2.getLsbD c =
        (marks.2.getLsbD c || (decide (j ≤ c) && sy.getLsbD c && marks.1.getLsbD c)) := by
  induction fuel generalizing j marks with
  | zero => cases hfuel
  | succ fuel ih =>
    obtain ⟨seen, internal⟩ := marks
    rw [markLoop]
    -- the label `j` itself is decided in this round, the others in the rounds that follow
    have hsplit : decide (j ≤ c) = (decide (j = c) || decide (j + 1 ≤ c)) := by
      rcases lt_trichotomy j c with h | h | h
      · simp [h.le, Nat.succ_le_of_lt h]
      · simp [h]
      · simp [Nat.not_le_of_lt h, h.ne', Nat.not_le_of_lt (Nat.lt_succ_of_lt h)]
    split
    · have hno : ¬ j ≤ c := by omega
      simp [hno]
    · rename_i hlt
      have hlt : j < 256 := Nat.lt_of_not_le hlt
      split
      · rename_i hskip
        -- an empty word is skipped whole
        obtain ⟨hseen, hinternal⟩ := ih (j + 64) (seen, internal) (by omega)
        have hsame : (decide (j + 64 ≤ c) && sy.getLsbD c) = (decide (j ≤ c) && sy.getLsbD c) := by
          by_cases hin : j ≤ c ∧ c < j + 64
          · rw [getLsbD_eq_false_of_word hskip.1 hskip.2 hin.1 hin.2, Bool.and_false,
              Bool.and_false]
          · have hiff : j + 64 ≤ c ↔ j ≤ c := by omega
            simp [hiff]
        rw [hseen, hinternal, hsame]
        exact ⟨rfl, rfl⟩
      · have hnext := fun marks => ih (j + 1) marks (by omega)
        by_cases hjc : j = c
        · subst hjc
          split_ifs with hj hseenj
          · simp [hnext, getLsbD_or_twoPow _ _ _ hlt, hj, hseenj]
          · simp [hnext, getLsbD_or_twoPow _ _ _ hlt, hj, hseenj]
          · simp [hnext, hj]
        · split_ifs <;> simp [hnext, getLsbD_or_twoPow _ _ _ hlt, hsplit, hjc]

/-- After some groups, a label is seen if one of them has it, and marked if two have it. -/
theorem foldl_markLoop (gs : List EdgeGroup) (c : Byte) :
    let marks := gs.foldl (fun marks g => markLoop g.symbols 257 0 marks) (0, 0)
    (marks.1.getLsbD c = true ↔ 1 ≤ gs.countP fun g => g.has c) ∧
      (marks.2.getLsbD c = true ↔ 2 ≤ gs.countP fun g => g.has c) := by
  induction gs using List.reverseRecOn with
  | nil => simp
  | append_singleton gs g ih =>
    intro marks
    have hmarks : marks = markLoop g.symbols 257 0
        (gs.foldl (fun marks g => markLoop g.symbols 257 0 marks) (0, 0)) := by
      simp only [marks, foldl_append, foldl_cons, foldl_nil]
    obtain ⟨hseen, hinternal⟩ := markLoop_spec g.symbols 257 0
      (gs.foldl (fun marks g => markLoop g.symbols 257 0 marks) (0, 0)) (by omega) c c.isLt
    have hcount : (gs ++ [g]).countP (fun g => g.has c) =
        (gs.countP fun g => g.has c) + if g.has c then 1 else 0 := by
      rw [countP_append, countP_singleton]
    rw [hmarks, hseen, hinternal, hcount, Bool.or_eq_true, Bool.or_eq_true, Bool.and_eq_true,
      Bool.and_eq_true, Bool.and_eq_true, ih.1, ih.2]
    have hhas : g.symbols.getLsbD c = g.has c := rfl
    rw [hhas]
    by_cases hc : g.has c = true
    · rw [if_pos hc]
      simp only [hc, Nat.zero_le, decide_true, and_self, or_true, true_and]
      exact ⟨by simp, by omega⟩
    · simp [hc]

theorem getLsbD_internal_iff (set : EdgeSet) (c : Byte) :
    (edgeSetGroupIterReset set .unique).internal.getLsbD c = true ↔
      2 ≤ set.groups.countP fun g => g.has c :=
  (foldl_markLoop set.groups c).2

/-- Two groups with a label are two destinations of the label. -/
theorem two_le_countP_iff (set : EdgeSet) (c : Byte) :
    2 ≤ (set.groups.countP fun g => g.has c) ↔
      ∃ t t', t ≠ t' ∧ set.HasEdge c t ∧ set.HasEdge c t' := by
  have hpair : (set.groups.filter fun g => g.has c).Pairwise (·.toState < ·.toState) :=
    set.groups_ascending.filter _
  have hmem : ∀ g ∈ set.groups.filter fun g => g.has c, set.HasEdge c g.toState := by
    intro g hg
    obtain ⟨hg, hc⟩ := mem_filter.mp hg
    exact ⟨g, hg, rfl, hc⟩
  rw [countP_eq_length_filter]
  constructor
  · intro hlen
    obtain ⟨g, g', gs, hl⟩ : ∃ g g' gs, set.groups.filter (fun g => g.has c) = g :: g' :: gs := by
      match hl : set.groups.filter fun g => g.has c with
      | [] => simp [hl] at hlen
      | [x] => simp [hl] at hlen
      | x :: y :: gs => exact ⟨x, y, gs, hl⟩
    rw [hl] at hpair hmem
    have hlt : g.toState < g'.toState := rel_of_pairwise_cons hpair mem_cons_self
    exact ⟨_, _, hlt.ne, hmem g (by simp), hmem g' (by simp)⟩
  · rintro ⟨t, t', hne, ⟨g, hg, rfl, hc⟩, ⟨g', hg', rfl, hc'⟩⟩
    have hin : g ∈ set.groups.filter fun g => g.has c := mem_filter.mpr ⟨hg, hc⟩
    have hin' : g' ∈ set.groups.filter fun g => g.has c := mem_filter.mpr ⟨hg', hc'⟩
    -- a list of one entry at most would have both groups as that entry
    match hl : set.groups.filter fun g => g.has c with
    | [] =>
      rw [hl] at hin
      cases hin
    | [x] =>
      rw [hl, List.mem_singleton] at hin hin'
      exact absurd (by rw [hin, hin']) hne
    | x :: y :: gs => simp [hl]

/-! ### What is left -/

/-- What the iterator yields for one group in the mode `UNIQUE`. -/
def uniqueHalf (internal : Symbols) (g : EdgeGroup) : List EdgeGroupIterInfo :=
  if g.symbols &&& ~~~internal ≠ 0 then [⟨g.symbols &&& ~~~internal, g.toState, some true⟩] else []

/-- What it yields for it then. -/
def otherHalf (internal : Symbols) (g : EdgeGroup) : List EdgeGroupIterInfo :=
  if g.symbols &&& internal ≠ 0 then [⟨g.symbols &&& internal, g.toState, some false⟩] else []

/-- The groups yielded from a state of the iterator on. -/
def groupsFrom (internal : Symbols) (flag : EdgeGroupIterFlag) (gs : List EdgeGroup) :
    List EdgeGroupIterInfo :=
  match flag, gs with
  | .all, gs => (gs.filter fun g => g.symbols != 0).map fun g => ⟨g.symbols, g.toState, none⟩
  | .unique, gs => gs.flatMap fun g => uniqueHalf internal g ++ otherHalf internal g
  | .nonUnique, [] => []
  | .nonUnique, g :: gs =>
    otherHalf internal g ++ gs.flatMap fun g => uniqueHalf internal g ++ otherHalf internal g

/-- A call at some groups is right about what is left. -/
def GroupCall (gs : List EdgeGroup) (it : EdgeGroupIter) : Prop :=
  (edgeSetGroupIterFrom gs it = none ∧ groupsFrom it.internal it.flag gs = []) ∨
    ∃ info k flag, edgeSetGroupIterFrom gs it = some (info, ⟨it.i + k, flag, it.internal⟩) ∧
      groupsFrom it.internal it.flag gs = info :: groupsFrom it.internal flag (gs.drop k)

/-- When nothing is yielded for a group, the call goes on with the groups after it. -/
theorem GroupCall.skip {g : EdgeGroup} {gs : List EdgeGroup} {it : EdgeGroupIter}
    {flag : EdgeGroupIterFlag} (hnext : GroupCall gs ⟨it.i + 1, flag, it.internal⟩)
    (hrest : groupsFrom it.internal it.flag (g :: gs) = groupsFrom it.internal flag gs)
    (hcall : edgeSetGroupIterFrom (g :: gs) it =
      edgeSetGroupIterFrom gs ⟨it.i + 1, flag, it.internal⟩) : GroupCall (g :: gs) it := by
  rw [GroupCall, hrest, hcall]
  rcases hnext with hend | ⟨info, k, flag', hnext, hleft⟩
  · exact .inl hend
  · refine .inr ⟨info, k + 1, flag', ?_, hleft⟩
    rw [hnext, add_right_comm, add_assoc]

theorem groupCall (gs : List EdgeGroup) (it : EdgeGroupIter) : GroupCall gs it := by
  induction gs generalizing it with
  | nil => exact .inl ⟨rfl, by cases it.flag <;> rfl⟩
  | cons g gs ih =>
    obtain ⟨i, flag, internal⟩ := it
    cases flag with
    | all =>
      by_cases hsy : g.symbols = 0#256
      · exact (ih ⟨i + 1, .all, internal⟩).skip (by simp [groupsFrom, hsy])
          (by simp [edgeSetGroupIterFrom, hsy])
      · exact .inr ⟨⟨g.symbols, g.toState, none⟩, 1, .all, by simp [edgeSetGroupIterFrom, hsy],
          by simp [groupsFrom, hsy]⟩
    | unique =>
      by_cases huniques : g.symbols &&& ~~~internal = 0#256
      · by_cases hothers : g.symbols &&& internal = 0#256
        · exact (ih ⟨i + 1, .unique, internal⟩).skip
            (by simp [groupsFrom, uniqueHalf, otherHalf, huniques, hothers])
            (by simp [edgeSetGroupIterFrom, huniques, hothers])
        · exact .inr ⟨⟨g.symbols &&& internal, g.toState, some false⟩, 1, .unique,
            by simp [edgeSetGroupIterFrom, huniques, hothers],
            by simp [groupsFrom, uniqueHalf, otherHalf, huniques, hothers]⟩
      · exact .inr ⟨⟨g.symbols &&& ~~~internal, g.toState, some true⟩, 0, .nonUnique,
          by simp [edgeSetGroupIterFrom, huniques], by simp [groupsFrom, uniqueHalf, huniques]⟩
    | nonUnique =>
      by_cases hothers : g.symbols &&& internal = 0#256
      · exact (ih ⟨i + 1, .unique, internal⟩).skip (by simp [groupsFrom, otherHalf, hothers])
          (by simp [edgeSetGroupIterFrom, hothers])
      · exact .inr ⟨⟨g.symbols &&& internal, g.toState, some false⟩, 1, .unique,
          by simp [edgeSetGroupIterFrom, hothers], by simp [groupsFrom, otherHalf, hothers]⟩

/-- **`edge_set_group_iter_next`**, called until there are no more groups. -/
theorem yields_edgeSetGroupIterNext (set : EdgeSet) (flag : EdgeGroupIterFlag) :
    Yields (edgeSetGroupIterNext set) (edgeSetGroupIterReset set flag)
      (groupsFrom (edgeSetGroupIterReset set flag).internal flag set.groups) := by
  apply yields_of_rest (fun it => it.internal = (edgeSetGroupIterReset set flag).internal)
    fun it : EdgeGroupIter => groupsFrom it.internal it.flag (set.groups.drop it.i)
  · intro it hit
    rcases groupCall (set.groups.drop it.i) it with hend | ⟨info, k, flag', hnext, hleft⟩
    · exact .inl hend
    · refine .inr ⟨info, _, hnext, ?_, hit⟩
      rw [hleft, drop_drop]
  · rfl

/-! ## §5 The Number Of Edges -/

/-- The loop over the bits of a word in `edge_set_count`. -/
def countBits (w : BitVec 64) : ℕ := (range 64).countP fun b => w.getLsbD b

def edgeSetCount (set : EdgeSet) : ℕ :=
  (set.groups.map fun g => ((range 4).map fun w =>
    if symbolsWord g.symbols w = 0 then 0 else countBits (symbolsWord g.symbols w)).sum).sum

theorem sum_countP_words (p : ℕ → Bool) (k : ℕ) :
    ((range k).map fun w => (range 64).countP fun b => p (64 * w + b)).sum =
      (range (64 * k)).countP p := by
  induction k with
  | zero => rfl
  | succ k ih =>
    rw [range_succ (n := k), map_append, sum_append, ih, Nat.mul_succ, range_add]
    simp [Function.comp_def]

theorem countBits_symbolsWord (sy : Symbols) (w : ℕ) :
    countBits (symbolsWord sy w) = (range 64).countP fun b => sy.getLsbD (64 * w + b) := by
  apply countP_congr
  intro b hb
  rw [symbolsWord]
  simp [mem_range.mp hb]

theorem EdgeGroup.length_labels (g : EdgeGroup) : g.labels.length =
    ((range 4).map fun w =>
      if symbolsWord g.symbols w = 0 then 0 else countBits (symbolsWord g.symbols w)).sum := by
  have hword : ∀ w,
      (if symbolsWord g.symbols w = 0 then 0 else countBits (symbolsWord g.symbols w)) =
      (range 64).countP fun b => g.symbols.getLsbD (64 * w + b) := by
    intro w
    rw [← countBits_symbolsWord]
    split
    · rename_i hzero
      rw [hzero]
      decide
    · rfl
  have hlabels : g.labels.length = (range 256).countP g.symbols.getLsbD := by
    rw [EdgeGroup.labels, ← countP_eq_length_filter, ← map_coe_finRange_eq_range, countP_map]
    rfl
  simp only [hword]
  rw [sum_countP_words, hlabels]

/-! ## §6 Agreement -/

/-- The list has the edges of the set, each of them once. -/
def Enumerates (set : EdgeSet) (pairs : List (Byte × ℕ)) : Prop :=
  pairs.Nodup ∧ ∀ c t, (c, t) ∈ pairs ↔ set.HasEdge c t

theorem Enumerates.perm {pairs pairs' : List (Byte × ℕ)} (h : Enumerates set pairs)
    (h' : Enumerates set pairs') : pairs.Perm pairs' := by
  rw [perm_ext_iff_of_nodup h.1 h'.1]
  intro ⟨c, t⟩
  rw [h.2, h'.2]

theorem Enumerates.of_perm {pairs pairs' : List (Byte × ℕ)} (h : Enumerates set pairs)
    (hperm : pairs.Perm pairs') : Enumerates set pairs' :=
  ⟨hperm.nodup_iff.mp h.1, fun c t => (hperm.mem_iff.symm).trans (h.2 c t)⟩

/-- What is reported for an edge. -/
def FsmEdge.pair (e : FsmEdge) : Byte × ℕ := (e.symbol, e.state.toNat)

/-- What is reported for a group. -/
def EdgeGroupIterInfo.pairs (info : EdgeGroupIterInfo) : List (Byte × ℕ) :=
  ((finRange 256).filter fun c : Byte => info.symbols.getLsbD c).map fun c => (c, info.toState)

/-- The readers of an edge set agree about its edges. -/
structure ReadersAgree (set : EdgeSet) : Prop where
  next : ∃ es, Yields (edgeSetNext set) {} es ∧ Enumerates set (es.map FsmEdge.pair)
  ordered : ∃ es, Yields (edgeSetOrderedIterNext set) {} es ∧ Enumerates set (es.map FsmEdge.pair)
  groupAll : ∃ infos, Yields (edgeSetGroupIterNext set) (edgeSetGroupIterReset set .all) infos ∧
    Enumerates set (infos.flatMap EdgeGroupIterInfo.pairs)
  groupUnique : ∃ infos,
    Yields (edgeSetGroupIterNext set) (edgeSetGroupIterReset set .unique) infos ∧
    Enumerates set (infos.flatMap EdgeGroupIterInfo.pairs) ∧
    ∀ info ∈ infos, ∀ c : Byte, info.symbols.getLsbD c = true →
      (info.unique = some true ↔ ∃! t, set.HasEdge c t)
  find : set.Functional → ∀ c t,
    (∃ e, edgeSetFind set c = some e ∧ e.pair = (c, t)) ↔ set.HasEdge c t
  transition : set.Functional → ∀ c t, edgeSetTransition set c = some t ↔ set.HasEdge c t
  count : ∀ pairs, Enumerates set pairs → edgeSetCount set = pairs.length

/-- The edges, group by group. -/
def edgePairs (set : EdgeSet) : List (Byte × ℕ) :=
  set.groups.flatMap fun g => g.labels.map fun c => (c, g.toState)

theorem enumerates_edgePairs (set : EdgeSet) : Enumerates set (edgePairs set) := by
  refine ⟨?_, fun c t => ?_⟩
  · rw [edgePairs, nodup_flatMap]
    refine ⟨fun g _ => ?_, ?_⟩
    · apply List.Nodup.map (fun c c' h => (Prod.mk.inj h).1)
      exact (nodup_finRange 256).filter _
    · refine set.groups_ascending.imp ?_
      intro g g' hlt pair hpair hpair'
      obtain ⟨c, -, rfl⟩ := mem_map.mp hpair
      obtain ⟨c', -, heq⟩ := mem_map.mp hpair'
      exact hlt.ne (Prod.mk.inj heq).2.symm
  · simp only [edgePairs, mem_flatMap, mem_map, EdgeGroup.mem_labels, Prod.mk.injEq]
    constructor
    · rintro ⟨g, hg, c', hc, rfl, rfl⟩
      exact ⟨g, hg, rfl, hc⟩
    · rintro ⟨g, hg, rfl, hc⟩
      exact ⟨g, hg, c, hc, rfl, rfl⟩

theorem edgeSetCount_eq (set : EdgeSet) : edgeSetCount set = (edgePairs set).length := by
  rw [edgeSetCount, edgePairs, length_flatMap]
  congr 2
  funext g
  rw [length_map, EdgeGroup.length_labels]

/-- All destinations fit the field `state` of `struct fsm_edge`. -/
def FitsEdge (set : EdgeSet) : Prop := ∀ c t, set.HasEdge c t → t < 2 ^ 24

theorem FitsEdge.pair_edge (hfit : FitsEdge set) {g : EdgeGroup} (hg : g ∈ set.groups) {c : Byte}
    (hc : g.has c = true) : (g.edge c).pair = (c, g.toState) := by
  have hlt := hfit c g.toState ⟨g, hg, rfl, hc⟩
  rw [FsmEdge.pair, EdgeGroup.edge, BitVec.toNat_ofNat, Nat.mod_eq_of_lt hlt]

theorem FitsEdge.map_edgeSetEdges (hfit : FitsEdge set) :
    (edgeSetEdges set).map FsmEdge.pair = edgePairs set := by
  rw [edgeSetEdges, map_flatMap]
  apply flatMap_congr
  intro g hg
  rw [map_map]
  apply map_congr_left
  intro c hc
  exact hfit.pair_edge hg (EdgeGroup.mem_labels.mp hc)

theorem FitsEdge.map_edgeSetOrderedEdges (hfit : FitsEdge set) :
    (edgeSetOrderedEdges set).map FsmEdge.pair = (finRange 256).flatMap fun c =>
      (set.groups.filter fun g => g.has c).map fun g => (c, g.toState) := by
  rw [edgeSetOrderedEdges, map_flatMap]
  apply flatMap_congr
  intro c _
  rw [map_map]
  apply map_congr_left
  intro g hg
  obtain ⟨hg, hc⟩ := mem_filter.mp hg
  exact hfit.pair_edge hg hc

theorem enumerates_ordered (set : EdgeSet) : Enumerates set ((finRange 256).flatMap fun c =>
    (set.groups.filter fun g => g.has c).map fun g => (c, g.toState)) := by
  refine ⟨?_, fun c t => ?_⟩
  · rw [nodup_flatMap]
    refine ⟨fun c _ => ?_, ?_⟩
    · rw [List.Nodup, pairwise_map]
      refine (set.groups_ascending.filter _).imp ?_
      intro g g' hlt heq
      exact hlt.ne (Prod.mk.inj heq).2
    · refine (nodup_finRange 256).imp ?_
      intro c c' hne pair hpair hpair'
      obtain ⟨g, -, rfl⟩ := mem_map.mp hpair
      obtain ⟨g', -, heq⟩ := mem_map.mp hpair'
      exact hne (Prod.mk.inj heq).1.symm
  · simp only [mem_flatMap, mem_finRange, true_and, mem_map, mem_filter, Prod.mk.injEq]
    constructor
    · rintro ⟨c', g, ⟨hg, hc⟩, rfl, rfl⟩
      exact ⟨g, hg, rfl, hc⟩
    · rintro ⟨g, hg, rfl, hc⟩
      exact ⟨c, g, ⟨hg, hc⟩, rfl, rfl⟩

theorem pairs_of_eq_zero (info : EdgeGroupIterInfo) (h : info.symbols = 0) : info.pairs = [] := by
  simp [EdgeGroupIterInfo.pairs, h]

theorem flatMap_pairs_all (internal : Symbols) (gs : List EdgeGroup) :
    (groupsFrom internal .all gs).flatMap EdgeGroupIterInfo.pairs =
      gs.flatMap fun g => g.labels.map fun c => (c, g.toState) := by
  induction gs with
  | nil => rfl
  | cons g gs ih =>
    rw [flatMap_cons, ← ih]
    by_cases hsy : g.symbols = 0#256
    · have hlabels : g.labels.map (fun c => (c, g.toState)) = [] :=
        pairs_of_eq_zero ⟨g.symbols, g.toState, none⟩ hsy
      simp [groupsFrom, hsy, hlabels]
    · simp [groupsFrom, hsy]
      rfl

theorem flatMap_pairs_half (sy : Symbols) (t : ℕ) (unique : Bool) :
    ((if sy ≠ 0 then [⟨sy, t, some unique⟩] else []) : List EdgeGroupIterInfo).flatMap
      EdgeGroupIterInfo.pairs =
      ((finRange 256).filter fun c : Byte => sy.getLsbD c).map fun c => (c, t) := by
  split
  · rw [flatMap_cons, flatMap_nil, append_nil]
    rfl
  · rename_i hsy
    exact (pairs_of_eq_zero ⟨sy, t, some unique⟩ (not_not.mp hsy)).symm

/-- The two halves of a group have its labels. -/
theorem halves_perm (internal : Symbols) (g : EdgeGroup) :
    ((uniqueHalf internal g ++ otherHalf internal g).flatMap EdgeGroupIterInfo.pairs).Perm
      (g.labels.map fun c => (c, g.toState)) := by
  have hunique : ((finRange 256).filter fun c : Byte =>
      (g.symbols &&& ~~~internal).getLsbD c) =
      g.labels.filter fun c : Byte => !internal.getLsbD c := by
    rw [EdgeGroup.labels, filter_filter]
    apply filter_congr
    intro c _
    rw [Bool.and_comm]
    simp [EdgeGroup.has]
  have hother : ((finRange 256).filter fun c : Byte => (g.symbols &&& internal).getLsbD c) =
      g.labels.filter fun c : Byte => internal.getLsbD c := by
    rw [EdgeGroup.labels, filter_filter]
    apply filter_congr
    intro c _
    rw [BitVec.getLsbD_and, Bool.and_comm]
    rfl
  rw [flatMap_append, uniqueHalf, otherHalf, flatMap_pairs_half, flatMap_pairs_half, hunique,
    hother, ← map_append]
  apply List.Perm.map
  exact perm_append_comm.trans (filter_append_perm _ _)

theorem flatMap_pairs_unique (internal : Symbols) (gs : List EdgeGroup) :
    ((groupsFrom internal .unique gs).flatMap EdgeGroupIterInfo.pairs).Perm
      (gs.flatMap fun g => g.labels.map fun c => (c, g.toState)) := by
  induction gs with
  | nil => exact List.Perm.refl _
  | cons g gs ih =>
    rw [groupsFrom, flatMap_cons, flatMap_append]
    exact (halves_perm internal g).append ih

/-- A label is handed back as unique iff it has one destination. -/
theorem unique_iff {info : EdgeGroupIterInfo}
    (hinfo : info ∈ groupsFrom (edgeSetGroupIterReset set .unique).internal .unique set.groups)
    {c : Byte} (hc : info.symbols.getLsbD c = true) :
    info.unique = some true ↔ ∃! t, set.HasEdge c t := by
  have hinternal := (getLsbD_internal_iff set c).trans (two_le_countP_iff set c)
  obtain ⟨g, hg, hhalf⟩ := mem_flatMap.mp hinfo
  rw [mem_append, uniqueHalf, otherHalf] at hhalf
  rcases hhalf with hhalf | hhalf
  · obtain ⟨-, rfl⟩ := by simpa using hhalf
    rw [BitVec.getLsbD_and, BitVec.getLsbD_not] at hc
    have hedge : set.HasEdge c g.toState := ⟨g, hg, rfl, by simp_all [EdgeGroup.has]⟩
    refine iff_of_true rfl ⟨g.toState, hedge, fun t ht => ?_⟩
    by_contra hne
    have hmarked := hinternal.mpr ⟨t, g.toState, hne, ht, hedge⟩
    rw [hmarked] at hc
    simp at hc
  · obtain ⟨-, rfl⟩ := by simpa using hhalf
    rw [BitVec.getLsbD_and, Bool.and_eq_true] at hc
    obtain ⟨t, t', hne, ht, ht'⟩ := hinternal.mp hc.2
    refine iff_of_false (by simp) fun hunique => ?_
    exact hne (hunique.unique ht ht')

theorem FitsEdge.transition (hfit : FitsEdge set) (hf : set.Functional) (c : Byte) (t : ℕ) :
    edgeSetTransition set c = some t ↔ set.HasEdge c t := by
  rw [edgeSetTransition_eq_some_iff hf]
  constructor
  · rintro ⟨t', hedge, rfl⟩
    rwa [Nat.mod_eq_of_lt (hfit c t' hedge)]
  · intro hedge
    exact ⟨t, hedge, (Nat.mod_eq_of_lt (hfit c t hedge)).symm⟩

theorem exists_find_iff (set : EdgeSet) (c : Byte) (t : ℕ) :
    (∃ e, edgeSetFind set c = some e ∧ e.pair = (c, t)) ↔ edgeSetTransition set c = some t := by
  rw [edgeSetTransition, Option.map_eq_some_iff]
  have hsymbol : ∀ e, edgeSetFind set c = some e → e.symbol = c := by
    intro e he
    obtain ⟨g, -, rfl⟩ := Option.map_eq_some_iff.mp he
    rfl
  constructor
  · rintro ⟨e, he, hpair⟩
    exact ⟨e, he, (Prod.mk.inj hpair).2⟩
  · rintro ⟨e, he, rfl⟩
    exact ⟨e, he, by rw [FsmEdge.pair, hsymbol e he]⟩

/-- What `edge_set_next` reports fits 24 bits. -/
theorem ReadersAgree.fitsEdge (hagree : ReadersAgree set) : FitsEdge set := by
  intro c t hedge
  obtain ⟨es, -, -, hmem⟩ := hagree.next
  obtain ⟨e, -, hpair⟩ := mem_map.mp ((hmem c t).mpr hedge)
  have ht : e.state.toNat = t := (Prod.mk.inj hpair).2
  exact ht ▸ e.state.isLt

/-- **The readers agree** exactly when all destinations fit 24 bits: some hand them back through
`struct fsm_edge`, others in full. -/
theorem readersAgree_iff (set : EdgeSet) :
    ReadersAgree set ↔ ∀ c t, set.HasEdge c t → t < 2 ^ 24 := by
  constructor
  · exact ReadersAgree.fitsEdge
  · intro hfit
    have hfit : FitsEdge set := hfit
    have hpairs := enumerates_edgePairs set
    have hordered := enumerates_ordered set
    refine ⟨⟨_, yields_edgeSetNext set, ?_⟩, ⟨_, yields_edgeSetOrderedIterNext set, ?_⟩,
      ⟨_, yields_edgeSetGroupIterNext set .all, ?_⟩,
      ⟨_, yields_edgeSetGroupIterNext set .unique, ?_, fun info hinfo c hc => unique_iff hinfo hc⟩,
      fun hf c t => ?_, fun hf c t => hfit.transition hf c t, fun pairs henum => ?_⟩
    · rwa [hfit.map_edgeSetEdges]
    · rwa [hfit.map_edgeSetOrderedEdges]
    · rwa [flatMap_pairs_all]
    · exact hpairs.of_perm (flatMap_pairs_unique _ _).symm
    · rw [exists_find_iff, hfit.transition hf]
    · rw [edgeSetCount_eq]
      exact (hpairs.perm henum).length_eq

/-- One edge to state `2 ^ 24`: read through `struct fsm_edge` it leads to state 0. -/
theorem not_readersAgree_farEdge : ¬ ReadersAgree (edgeSetAdd .null 97 (2 ^ 24)) := by
  intro hagree
  have hlt := hagree.fitsEdge 97 (2 ^ 24)
    ((hasEdge_edgeSetAdd _ _ _ _ _).mpr (.inr ⟨rfl, rfl⟩))
  exact absurd hlt (lt_irrefl _)

end Libfsm
