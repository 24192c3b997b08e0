import Libfsm.Adt.EdgeSet
import Libfsm.Ops.DstBuf

/-!
# Label Partitions

`determinise.c` describes the edges out of a set of states by a list of pairs of labels and
destinations, such that no label is in two pairs.  This module has the two computations on
such lists, without the caches around them.

- `Piece`, `Partition`: the pairs, and that no label is in two of them
- `Piece.Rel`: the edges a list of pairs stands for
- `partitionGroups`: the partition for the edge groups of one state
- `combinePieces`: the partition for two sets of states together
- `partitionGroups_spec`, `combinePieces_spec`: they are partitions, of the edges given

The flags `words_used` say which of the four words of a label set are non-zero.  They save
work only, so they are left out.
-/

namespace Libfsm

open Lib
open List hiding nil cons

variable {c : Byte} {t : ℕ} {base : EdgeGroup} {others : List EdgeGroup} {ps : List Piece}
  {p : Piece}

/-! ## §1 Pieces -/

/-- The labels and destinations of a `struct result_entry`. -/
structure Piece where
  dst : List ℕ
  labels : Symbols
  deriving DecidableEq

/-- The label is one of the piece's. -/
def Piece.has (p : Piece) (c : Byte) : Bool := p.labels.getLsbD c

/-- The edges a list of pieces stands for. -/
def Piece.Rel (ps : List Piece) (c : Byte) (t : ℕ) : Prop :=
  ∃ p ∈ ps, p.has c = true ∧ t ∈ p.dst

/-- The label is one of some piece's. -/
def Piece.Dom (ps : List Piece) (c : Byte) : Prop := ∃ p ∈ ps, p.has c = true

/-- No label is in both pieces. -/
def Piece.Apart (p q : Piece) : Prop := ∀ c, p.has c = true → q.has c = false

instance : Std.Symm Piece.Apart := ⟨by
  intro p q h c hq
  by_contra hp
  rw [h c (by simpa using hp)] at hq
  cases hq⟩

/-- A piece has labels, and its destinations are an ascending list. -/
structure Piece.Proper (p : Piece) : Prop where
  labels : p.labels ≠ 0
  dst : p.dst ≠ []
  ascending : p.dst.Pairwise (· < ·)

/-- No label is in two pieces. -/
structure Partition (ps : List Piece) : Prop where
  apart : ps.Pairwise Piece.Apart
  proper : ∀ p ∈ ps, p.Proper

@[simp] theorem not_rel_nil (c : Byte) (t : ℕ) : ¬ Piece.Rel [] c t := by
  simp [Piece.Rel]

@[simp] theorem not_dom_nil (c : Byte) : ¬ Piece.Dom [] c := by
  simp [Piece.Dom]

theorem rel_cons : Piece.Rel (p :: ps) c t ↔ (p.has c = true ∧ t ∈ p.dst) ∨ Piece.Rel ps c t := by
  simp [Piece.Rel]

theorem dom_cons : Piece.Dom (p :: ps) c ↔ p.has c = true ∨ Piece.Dom ps c := by
  simp [Piece.Dom]

theorem rel_append {qs : List Piece} :
    Piece.Rel (ps ++ qs) c t ↔ Piece.Rel ps c t ∨ Piece.Rel qs c t := by
  unfold Piece.Rel
  simp only [mem_append, or_and_right, exists_or]

theorem Piece.Rel.dom (h : Piece.Rel ps c t) : Piece.Dom ps c := by
  obtain ⟨p, hp, hc, -⟩ := h
  exact ⟨p, hp, hc⟩

theorem Partition.nil : Partition [] := ⟨List.Pairwise.nil, by simp⟩

theorem Partition.cons (hps : Partition ps) (hp : p.Proper)
    (hapart : ∀ c, p.has c = true → ¬ Piece.Dom ps c) : Partition (p :: ps) where
  apart := by
    refine pairwise_cons.mpr ⟨fun q hq c hc => ?_, hps.apart⟩
    by_contra hqc
    exact hapart c hc ⟨q, hq, by simpa using hqc⟩
  proper := by
    intro q hq
    rcases mem_cons.mp hq with rfl | hq
    · exact hp
    · exact hps.proper q hq

theorem Partition.tail (h : Partition (p :: ps)) : Partition ps :=
  ⟨(pairwise_cons.mp h.apart).2, fun q hq => h.proper q (mem_cons_of_mem p hq)⟩

theorem Partition.append {qs : List Piece} (hps : Partition ps) (hqs : Partition qs)
    (hapart : ∀ c, Piece.Dom ps c → ¬ Piece.Dom qs c) : Partition (ps ++ qs) where
  apart := by
    refine pairwise_append.mpr ⟨hps.apart, hqs.apart, fun p hp q hq c hc => ?_⟩
    by_contra hqc
    exact hapart c ⟨p, hp, hc⟩ ⟨q, hq, by simpa using hqc⟩
  proper := by
    intro p hp
    rcases mem_append.mp hp with hp | hp
    · exact hps.proper p hp
    · exact hqs.proper p hp

/-- A label determines its piece, so the piece has all its destinations. -/
theorem Partition.mem_dst_iff (h : Partition ps) (hp : p ∈ ps)
    (hc : p.has c = true) : t ∈ p.dst ↔ Piece.Rel ps c t := by
  constructor
  · intro ht
    exact ⟨p, hp, hc, ht⟩
  · intro ⟨q, hq, hqc, ht⟩
    by_cases hpq : p = q
    · exact hpq ▸ ht
    · have := h.apart.forall hp hq hpq c hc
      rw [hqc] at this
      exact absurd this (Bool.false_ne_true ∘ Eq.symm)

/-- Every label leads somewhere. -/
theorem Partition.exists_rel (h : Partition ps) (hc : Piece.Dom ps c) : ∃ t, Piece.Rel ps c t := by
  obtain ⟨p, hp, hc⟩ := hc
  obtain ⟨t, ht⟩ := exists_mem_of_ne_nil p.dst (h.proper p hp).dst
  exact ⟨t, p, hp, hc, ht⟩

@[simp] theorem getLsbD_compl (sy : Symbols) (c : Byte) : (~~~sy).getLsbD c = !sy.getLsbD c := by
  simp [c.isLt]

/-! ## §2 One State -/

/-- `clear_group_labels` -/
def EdgeGroup.clear (g : EdgeGroup) (labels : Symbols) : EdgeGroup :=
  { g with symbols := g.symbols &&& ~~~labels }

/-- The inner loop of `cache_single_state_analysis`: narrow the labels down to those shared
with each group that overlaps, and remember those groups. -/
def sweep (labels : Symbols) : List EdgeGroup → Symbols × List (EdgeGroup × Bool)
  | [] => (labels, [])
  | g :: gs =>
    if labels &&& g.symbols ≠ 0 then
      ((sweep (labels &&& g.symbols) gs).1, (g, true) :: (sweep (labels &&& g.symbols) gs).2)
    else ((sweep labels gs).1, (g, false) :: (sweep labels gs).2)

/-- The pair that one pass finds. -/
def sweepPiece (base : EdgeGroup) (others : List EdgeGroup) : Piece where
  dst := base.toState ::
    ((sweep base.symbols others).2.filter Prod.snd).map fun x => x.1.toState
  labels := (sweep base.symbols others).1

/-- The groups after a pass: its labels are gone from the groups that took part. -/
def sweepRest (base : EdgeGroup) (others : List EdgeGroup) : List EdgeGroup :=
  base.clear (sweep base.symbols others).1 ::
    (sweep base.symbols others).2.map fun x =>
      if x.2 then x.1.clear (sweep base.symbols others).1 else x.1

/-- The outer loop of `cache_single_state_analysis`; the head is the group at `base_i`. -/
def partitionLoop : ℕ → List EdgeGroup → List Piece
  | 0, _ => []
  | _ + 1, [] => []
  | fuel + 1, base :: others =>
    if base.symbols = 0 then partitionLoop fuel others
    else sweepPiece base others :: partitionLoop fuel (sweepRest base others)

/-- The partition for the edge groups of one state.  Each pass takes away a label from some
group, or gives up an empty group. -/
def partitionGroups (groups : List EdgeGroup) : List Piece :=
  partitionLoop (257 * groups.length) groups

/-- The edges a list of groups stands for. -/
def HasGroup (gs : List EdgeGroup) (c : Byte) (t : ℕ) : Prop :=
  ∃ g ∈ gs, g.toState = t ∧ g.has c = true

@[simp] theorem EdgeGroup.has_clear (g : EdgeGroup) (labels : Symbols) (c : Byte) :
    (g.clear labels).has c = (g.has c && !labels.getLsbD c) := by
  unfold EdgeGroup.has EdgeGroup.clear
  rw [BitVec.getLsbD_and, getLsbD_compl]

@[simp] theorem EdgeGroup.toState_clear (g : EdgeGroup) (labels : Symbols) :
    (g.clear labels).toState = g.toState := rfl

theorem map_fst_sweep (labels : Symbols) (gs : List EdgeGroup) :
    (sweep labels gs).2.map Prod.fst = gs := by
  induction gs generalizing labels with
  | nil => rfl
  | cons g gs ih =>
    unfold sweep
    split <;> simp [ih]

/-- The labels only shrink, and never to nothing. -/
theorem sweep_labels (labels : Symbols) (gs : List EdgeGroup) :
    (∀ c : Byte, (sweep labels gs).1.getLsbD c = true → labels.getLsbD c = true) ∧
      (labels ≠ 0 → (sweep labels gs).1 ≠ 0) := by
  induction gs generalizing labels with
  | nil => exact ⟨fun _ h => h, fun h => h⟩
  | cons g gs ih =>
    unfold sweep
    split
    · rename_i hoverlap
      obtain ⟨hsub, hne⟩ := ih (labels &&& g.symbols)
      refine ⟨fun c hc => ?_, fun _ => hne hoverlap⟩
      have := hsub c hc
      rw [BitVec.getLsbD_and, Bool.and_eq_true] at this
      exact this.1
    · exact ih labels

/-- The groups that take part are those with the labels found. -/
theorem sweep_flag (labels : Symbols) (gs : List EdgeGroup) {x : EdgeGroup × Bool}
    (hx : x ∈ (sweep labels gs).2) (hc : (sweep labels gs).1.getLsbD c = true) :
    x.1.has c = x.2 := by
  induction gs generalizing labels with
  | nil => simp [sweep] at hx
  | cons g gs ih =>
    unfold sweep at hx hc
    split at hx
    · rename_i hoverlap
      rw [if_pos hoverlap] at hc
      rcases mem_cons.mp hx with rfl | hx
      · have := (sweep_labels (labels &&& g.symbols) gs).1 c hc
        rw [BitVec.getLsbD_and, Bool.and_eq_true] at this
        exact this.2
      · exact ih _ hx hc
    · rename_i hoverlap
      rw [if_neg hoverlap] at hc
      rcases mem_cons.mp hx with rfl | hx
      · have hlabel := (sweep_labels labels gs).1 c hc
        by_contra hg
        have hg : g.symbols.getLsbD c = true := by simpa [EdgeGroup.has] using hg
        exact hoverlap ((symbols_ne_zero_iff _).mpr ⟨c, by simp [hlabel, hg]⟩)
      · exact ih _ hx hc

theorem mem_dst_sweepPiece (hc : (sweepPiece base others).has c = true) :
    t ∈ (sweepPiece base others).dst ↔ HasGroup (base :: others) c t := by
  have hbase : base.has c = true := (sweep_labels base.symbols others).1 c hc
  have hothers : (∃ g ∈ others, g.toState = t ∧ g.has c = true) ↔
      ∃ x ∈ (sweep base.symbols others).2, x.1.toState = t ∧ x.2 = true := by
    conv_lhs => rw [← map_fst_sweep base.symbols others]
    simp only [mem_map, exists_exists_and_eq_and]
    constructor
    · intro ⟨x, hx, ht, hxc⟩
      exact ⟨x, hx, ht, (sweep_flag _ _ hx hc).symm.trans hxc⟩
    · intro ⟨x, hx, ht, hxb⟩
      exact ⟨x, hx, ht, (sweep_flag _ _ hx hc).trans hxb⟩
  have hcons : HasGroup (base :: others) c t ↔
      base.toState = t ∨ ∃ g ∈ others, g.toState = t ∧ g.has c = true := by
    simp [HasGroup, hbase]
  rw [hcons, hothers]
  unfold sweepPiece
  simp only [mem_cons, mem_map, mem_filter]
  constructor
  · rintro (rfl | ⟨x, ⟨hx, hb⟩, ht⟩)
    · exact .inl rfl
    · exact .inr ⟨x, hx, ht, hb⟩
  · rintro (rfl | ⟨x, hx, ht, hb⟩)
    · exact .inl rfl
    · exact .inr ⟨x, ⟨hx, hb⟩, ht⟩

theorem map_toState_sweepRest (base : EdgeGroup) (others : List EdgeGroup) :
    (sweepRest base others).map EdgeGroup.toState = (base :: others).map EdgeGroup.toState := by
  have hothers : (others.map EdgeGroup.toState) =
      (sweep base.symbols others).2.map fun x => x.1.toState := by
    conv_lhs => rw [← map_fst_sweep base.symbols others, map_map]
    rfl
  rw [map_cons, hothers]
  unfold sweepRest
  rw [map_cons, map_map]
  congr 1
  apply map_congr_left
  intro x _
  show EdgeGroup.toState (if x.2 then _ else _) = _
  split <;> rfl

/-- A pass leaves the edges with other labels. -/
theorem hasGroup_sweepRest : HasGroup (sweepRest base others) c t ↔
      HasGroup (base :: others) c t ∧ (sweepPiece base others).has c = false := by
  have hlabels : (sweepPiece base others).has c = (sweep base.symbols others).1.getLsbD c := rfl
  -- clearing the labels from a group that has none of them changes nothing
  have hclear : ∀ x ∈ (sweep base.symbols others).2,
      (if x.2 then x.1.clear (sweep base.symbols others).1 else x.1).has c =
        (x.1.has c && !(sweep base.symbols others).1.getLsbD c) := by
    intro x hx
    split
    · exact x.1.has_clear _ c
    · by_cases hc : (sweep base.symbols others).1.getLsbD c = true
      · have hflag := sweep_flag _ _ hx hc
        simp_all
      · rw [Bool.not_eq_true] at hc
        rw [hc, Bool.not_false, Bool.and_true]
  have hstate : ∀ x : EdgeGroup × Bool,
      (if x.2 then x.1.clear (sweep base.symbols others).1 else x.1).toState = x.1.toState := by
    intro x
    split <;> rfl
  have hothers : HasGroup others c t ↔
      ∃ x ∈ (sweep base.symbols others).2, x.1.toState = t ∧ x.1.has c = true := by
    unfold HasGroup
    conv_lhs => rw [← map_fst_sweep base.symbols others]
    simp only [mem_map, exists_exists_and_eq_and]
  have hcons : HasGroup (base :: others) c t ↔
      (base.toState = t ∧ base.has c = true) ∨ HasGroup others c t := by
    simp [HasGroup]
  rw [hcons, hothers, hlabels]
  unfold HasGroup sweepRest
  rw [exists_mem_cons_iff]
  simp only [mem_map, exists_exists_and_eq_and, hstate, EdgeGroup.has_clear,
    EdgeGroup.toState_clear]
  constructor
  · rintro (⟨ht, hc⟩ | ⟨x, hx, ht, hc⟩)
    · rw [Bool.and_eq_true, Bool.not_eq_true'] at hc
      exact ⟨.inl ⟨ht, hc.1⟩, hc.2⟩
    · rw [hclear x hx, Bool.and_eq_true, Bool.not_eq_true'] at hc
      exact ⟨.inr ⟨x, hx, ht, hc.1⟩, hc.2⟩
  · rintro ⟨⟨ht, hc⟩ | ⟨x, hx, ht, hc⟩, hl⟩
    · exact .inl ⟨ht, by rw [hc, hl]; rfl⟩
    · exact .inr ⟨x, hx, ht, by rw [hclear x hx, hc, hl]; rfl⟩

theorem sweepPiece_proper (hbase : base.symbols ≠ 0)
    (hasc : Ascending EdgeGroup.toState (base :: others)) :
    (sweepPiece base others).Proper where
  labels := (sweep_labels base.symbols others).2 hbase
  dst := cons_ne_nil _ _
  ascending := by
    -- the destinations are a sublist of those of all groups
    have hsub : ((sweep base.symbols others).2.filter Prod.snd).map (fun x => x.1.toState)
        |>.Sublist (others.map EdgeGroup.toState) := by
      conv_rhs => rw [← map_fst_sweep base.symbols others, map_map]
      exact (filter_sublist).map _
    have hall : (base.toState :: others.map EdgeGroup.toState).Pairwise (· < ·) :=
      pairwise_map.mpr hasc
    exact hall.sublist (hsub.cons_cons _)

/-- The number of labels in a set. -/
def labelCount (sy : Symbols) : ℕ := (Finset.univ.filter fun c : Byte => sy.getLsbD c = true).card

theorem labelCount_le (sy : Symbols) : labelCount sy ≤ 256 := by
  exact (Finset.card_le_univ _).trans (Fintype.card_fin 256).le

theorem labelCount_le_of_subset {sy sy' : Symbols}
    (hsub : ∀ c : Byte, sy.getLsbD c = true → sy'.getLsbD c = true) :
    labelCount sy ≤ labelCount sy' := by
  apply Finset.card_le_card
  intro c hc
  rw [Finset.mem_filter] at hc ⊢
  exact ⟨hc.1, hsub c hc.2⟩

theorem labelCount_lt_of_subset {sy sy' : Symbols}
    (hsub : ∀ c : Byte, sy.getLsbD c = true → sy'.getLsbD c = true) (hc : sy.getLsbD c = false)
    (hc' : sy'.getLsbD c = true) : labelCount sy < labelCount sy' := by
  apply Finset.card_lt_card
  refine ⟨?_, fun hle => ?_⟩
  · intro d hd
    rw [Finset.mem_filter] at hd ⊢
    exact ⟨hd.1, hsub d hd.2⟩
  · have := hle (Finset.mem_filter.mpr ⟨Finset.mem_univ c, hc'⟩)
    rw [Finset.mem_filter, hc] at this
    cases this.2

/-- What the passes have left to do. -/
def sweepMeasure (gs : List EdgeGroup) : ℕ := (gs.map fun g => labelCount g.symbols + 1).sum

theorem sweepMeasure_le (gs : List EdgeGroup) : sweepMeasure gs ≤ 257 * gs.length := by
  unfold sweepMeasure
  induction gs with
  | nil => simp
  | cons g gs ih =>
    have := labelCount_le g.symbols
    rw [map_cons, sum_cons, length_cons]
    omega

theorem labelCount_clear_le (g : EdgeGroup) (labels : Symbols) :
    labelCount (g.clear labels).symbols ≤ labelCount g.symbols := by
  apply labelCount_le_of_subset
  intro c hc
  have hc : (g.clear labels).has c = true := hc
  rw [EdgeGroup.has_clear, Bool.and_eq_true] at hc
  exact hc.1

/-- A pass takes at least one label away from its base. -/
theorem sweepMeasure_sweepRest_lt (hbase : base.symbols ≠ 0) :
    sweepMeasure (sweepRest base others) <
      sweepMeasure (base :: others) := by
  -- the base loses a label; the others do not grow
  have hhead : labelCount (base.clear (sweep base.symbols others).1).symbols <
      labelCount base.symbols := by
    obtain ⟨hsub, hne⟩ := sweep_labels base.symbols others
    obtain ⟨c, hc⟩ := (symbols_ne_zero_iff _).mp (hne hbase)
    refine labelCount_lt_of_subset (c := c) ?_ ?_ (hsub c hc)
    · intro d hd
      have hd : (base.clear (sweep base.symbols others).1).has d = true := hd
      rw [EdgeGroup.has_clear, Bool.and_eq_true] at hd
      exact hd.1
    · show (base.clear (sweep base.symbols others).1).has c = false
      rw [EdgeGroup.has_clear, hc, Bool.not_true, Bool.and_false]
  have htail : ∀ l : List (EdgeGroup × Bool),
      sweepMeasure (l.map fun x =>
        if x.2 then x.1.clear (sweep base.symbols others).1 else x.1) ≤
      sweepMeasure (l.map Prod.fst) := by
    intro l
    unfold sweepMeasure
    induction l with
    | nil => simp
    | cons x l ih =>
      simp only [map_cons, sum_cons]
      have hx : labelCount (if x.2 then x.1.clear (sweep base.symbols others).1
          else x.1).symbols ≤ labelCount x.1.symbols := by
        split
        · exact labelCount_clear_le _ _
        · exact le_rfl
      omega
  have := htail (sweep base.symbols others).2
  rw [map_fst_sweep] at this
  unfold sweepMeasure sweepRest at *
  simp only [map_cons, sum_cons]
  omega

/-- The loop finds a partition of the edges of the groups. -/
theorem partitionLoop_spec {fuel : ℕ} {gs : List EdgeGroup} (hfuel : sweepMeasure gs ≤ fuel)
    (hasc : Ascending EdgeGroup.toState gs) :
    Partition (partitionLoop fuel gs) ∧
      ∀ c t, Piece.Rel (partitionLoop fuel gs) c t ↔ HasGroup gs c t := by
  induction fuel generalizing gs with
  | zero =>
    cases gs with
    | nil => exact ⟨Partition.nil, by simp [partitionLoop, HasGroup]⟩
    | cons g gs =>
      unfold sweepMeasure at hfuel
      rw [map_cons, sum_cons] at hfuel
      omega
  | succ fuel ih =>
    cases gs with
    | nil => exact ⟨Partition.nil, by simp [partitionLoop, HasGroup]⟩
    | cons base others =>
      unfold partitionLoop
      split
      · -- the base is empty
        rename_i hbase
        have hnot : ∀ c, base.has c = false := by
          intro c
          rw [EdgeGroup.has, hbase]
          exact BitVec.getLsbD_zero
        have hothers : sweepMeasure others ≤ fuel := by
          unfold sweepMeasure at hfuel ⊢
          rw [map_cons, sum_cons] at hfuel
          omega
        obtain ⟨hpart, hrel⟩ := ih hothers (pairwise_cons.mp hasc).2
        refine ⟨hpart, fun c t => ?_⟩
        rw [hrel]
        simp [HasGroup, hnot]
      · rename_i hbase
        have hasc' : Ascending EdgeGroup.toState (sweepRest base others) := by
          have : ((base :: others).map EdgeGroup.toState).Pairwise (· < ·) :=
            pairwise_map.mpr hasc
          rw [← map_toState_sweepRest] at this
          exact pairwise_map.mp this
        obtain ⟨hpart, hrel⟩ := ih
          (Nat.le_of_lt_succ ((sweepMeasure_sweepRest_lt hbase).trans_le hfuel)) hasc'
        refine ⟨hpart.cons (sweepPiece_proper hbase hasc) ?_, fun c t => ?_⟩
        · -- the labels of this pass are gone from what follows
          intro c hc hdom
          obtain ⟨t, ht⟩ := hpart.exists_rel hdom
          rw [hrel, hasGroup_sweepRest, hc] at ht
          cases ht.2.symm
        · rw [rel_cons, hrel, hasGroup_sweepRest]
          by_cases hc : (sweepPiece base others).has c = true
          · simp [hc, mem_dst_sweepPiece hc]
          · simp [hc]

theorem partitionGroups_spec {gs : List EdgeGroup} (hasc : Ascending EdgeGroup.toState gs) :
    Partition (partitionGroups gs) ∧
      ∀ c t, Piece.Rel (partitionGroups gs) c t ↔ HasGroup gs c t :=
  partitionLoop_spec (sweepMeasure_le gs) hasc

/-! ## §3 Two Sets Of States -/

/-- Intersect the labels with each overlapping entry on the right, and collect its
destinations. -/
def overlapWith (labels : Symbols) (dst : List ℕ) : List Piece → Symbols × List ℕ
  | [] => (labels, dst)
  | er :: rr =>
    if labels &&& er.labels ≠ 0 then overlapWith (labels &&& er.labels) (dst ++ er.dst) rr
    else overlapWith labels dst rr

/-- The first pass of `combine_result_pair_and_commit`: an entry on the left is taken again
until all its labels are checked.  Also gives back the labels that are checked at the end. -/
def combineLeft (rr : List Piece) : ℕ → Symbols → List Piece → List Piece × Symbols
  | 0, checked, _ => ([], checked)
  | _ + 1, checked, [] => ([], checked)
  | fuel + 1, checked, el :: rl =>
    if el.labels &&& ~~~checked = 0 then combineLeft rr fuel checked rl
    else
      let (labels, dst) := overlapWith (el.labels &&& ~~~checked) el.dst rr
      let (more, checked) := combineLeft rr fuel (checked ||| labels) (el :: rl)
      (⟨sortAndDedupDstBuf dst, labels⟩ :: more, checked)

/-- The second pass: what is left unchecked on the right. -/
def combineRight (checked : Symbols) (rr : List Piece) : List Piece :=
  rr.filterMap fun er =>
    if er.labels &&& ~~~checked = 0 then none
    else some ⟨er.dst, er.labels &&& ~~~checked⟩

/-- `combine_result_pair_and_commit`, without the commit. -/
def combinePieces (ra rb : List Piece) : List Piece :=
  -- the left side is the shorter one
  let rl := if ra.length ≤ rb.length then ra else rb
  let rr := if ra.length > rb.length then ra else rb
  let (left, checked) := combineLeft rr (256 + rl.length) 0 rl
  left ++ combineRight checked rr

theorem has_unchecked {labels checked : Symbols} : (labels &&& ~~~checked).getLsbD c = true ↔
      labels.getLsbD c = true ∧ checked.getLsbD c = false := by
  rw [BitVec.getLsbD_and, getLsbD_compl, Bool.and_eq_true, Bool.not_eq_true']

/-- The labels shrink, never to nothing, and the destinations become those of all entries
with the labels left. -/
theorem overlapWith_spec (labels : Symbols) (dst : List ℕ) (rr : List Piece) :
    (∀ c : Byte, (overlapWith labels dst rr).1.getLsbD c = true → labels.getLsbD c = true) ∧
      (labels ≠ 0 → (overlapWith labels dst rr).1 ≠ 0) ∧
      ∀ c : Byte, (overlapWith labels dst rr).1.getLsbD c = true →
        ∀ t, t ∈ (overlapWith labels dst rr).2 ↔ t ∈ dst ∨ Piece.Rel rr c t := by
  induction rr generalizing labels dst with
  | nil => exact ⟨fun _ h => h, fun h => h, by simp [overlapWith]⟩
  | cons er rr ih =>
    unfold overlapWith
    split
    · rename_i hoverlap
      obtain ⟨hsub, hne, hdst⟩ := ih (labels &&& er.labels) (dst ++ er.dst)
      have hboth : ∀ c : Byte,
          (overlapWith (labels &&& er.labels) (dst ++ er.dst) rr).1.getLsbD c = true →
            labels.getLsbD c = true ∧ er.has c = true := by
        intro c hc
        have := hsub c hc
        rwa [BitVec.getLsbD_and, Bool.and_eq_true] at this
      refine ⟨fun c hc => (hboth c hc).1, fun _ => hne hoverlap, fun c hc t => ?_⟩
      rw [hdst c hc, rel_cons, mem_append, or_assoc]
      simp [(hboth c hc).2]
    · rename_i hoverlap
      obtain ⟨hsub, hne, hdst⟩ := ih labels dst
      refine ⟨hsub, hne, fun c hc t => ?_⟩
      -- the labels left only shrink, so `er` has none of them
      have hnot : ¬ er.has c = true := by
        intro her
        refine hoverlap ((symbols_ne_zero_iff _).mpr ⟨c, ?_⟩)
        rw [BitVec.getLsbD_and, hsub c hc]
        exact her
      rw [hdst c hc, rel_cons]
      simp [hnot]

/-- The first pass covers the labels of the left side that were not checked before. -/
theorem combineLeft_spec (rr : List Piece) {fuel : ℕ} {checked : Symbols} {rl : List Piece}
    (hfuel : labelCount (~~~checked) + rl.length ≤ fuel) (hrl : Partition rl) :
    Partition (combineLeft rr fuel checked rl).1 ∧
      (∀ c : Byte, (combineLeft rr fuel checked rl).2.getLsbD c = true ↔
        checked.getLsbD c = true ∨ Piece.Dom rl c) ∧
      ∀ c t, Piece.Rel (combineLeft rr fuel checked rl).1 c t ↔
        checked.getLsbD c = false ∧ Piece.Dom rl c ∧ (Piece.Rel rl c t ∨ Piece.Rel rr c t) := by
  induction fuel generalizing checked rl with
  | zero =>
    have hlen : rl.length = 0 := by omega
    obtain rfl := length_eq_zero_iff.mp hlen
    exact ⟨Partition.nil, by simp [combineLeft], by simp [combineLeft]⟩
  | succ fuel ih =>
    cases rl with
    | nil => exact ⟨Partition.nil, by simp [combineLeft], by simp [combineLeft]⟩
    | cons el rl =>
      unfold combineLeft
      split
      · -- all labels of this entry are checked
        rename_i hdone
        have hchecked : ∀ c, el.has c = true → checked.getLsbD c = true := by
          intro c hc
          by_contra hcc
          have hex : ∃ c : Byte, (el.labels &&& ~~~checked).getLsbD c = true :=
            ⟨c, has_unchecked.mpr ⟨hc, by simpa using hcc⟩⟩
          exact (symbols_ne_zero_iff _).mpr hex hdone
        have hrest : labelCount (~~~checked) + rl.length ≤ fuel := by
          rw [length_cons] at hfuel
          omega
        obtain ⟨hpart, hch, hrel⟩ := ih hrest hrl.tail
        refine ⟨hpart, fun c => ?_, fun c t => ?_⟩
        · rw [hch, dom_cons]
          tauto
        · rw [hrel, dom_cons, rel_cons]
          by_cases hc : checked.getLsbD c = true
          · simp [hc]
          · have : ¬ el.has c = true := fun h => hc (hchecked c h)
            simp [this]
      · rename_i hsome
        obtain ⟨hsub, hne, hdst⟩ := overlapWith_spec (el.labels &&& ~~~checked) el.dst rr
        generalize overlapWith (el.labels &&& ~~~checked) el.dst rr = r at hsub hne hdst
        obtain ⟨labels, dst⟩ := r
        have hfresh : ∀ c : Byte, labels.getLsbD c = true →
            el.has c = true ∧ checked.getLsbD c = false :=
          fun c hc => has_unchecked.mp (hsub c hc)
        -- the same entry again, with fewer labels unchecked
        have hless : labelCount (~~~(checked ||| labels)) + (el :: rl).length ≤ fuel := by
          obtain ⟨c, hc⟩ := (symbols_ne_zero_iff _).mp (hne hsome)
          have hlt : labelCount (~~~(checked ||| labels)) < labelCount (~~~checked) := by
            refine labelCount_lt_of_subset (c := c) ?_ ?_ ?_
            · intro d hd
              rw [getLsbD_compl, BitVec.getLsbD_or, Bool.not_eq_true', Bool.or_eq_false_iff] at hd
              rw [getLsbD_compl, hd.1, Bool.not_false]
            · rw [getLsbD_compl, BitVec.getLsbD_or, hc, Bool.or_true, Bool.not_true]
            · rw [getLsbD_compl, (hfresh c hc).2, Bool.not_false]
          omega
        obtain ⟨hpart, hch, hrel⟩ := ih hless hrl
        have hor : ∀ c : Byte, (checked ||| labels).getLsbD c = false ↔
            checked.getLsbD c = false ∧ labels.getLsbD c = false := by
          intro c
          rw [BitVec.getLsbD_or, Bool.or_eq_false_iff]
        obtain ⟨hsorted, hmem⟩ := sortAndDedupDstBuf_spec dst
        refine ⟨hpart.cons ⟨hne hsome, ?_, hsorted⟩ ?_, fun c => ?_, fun c t => ?_⟩
        · obtain ⟨t, ht⟩ := exists_mem_of_ne_nil el.dst
            (hrl.proper el mem_cons_self).dst
          obtain ⟨c, hc⟩ := (symbols_ne_zero_iff _).mp (hne hsome)
          exact ne_nil_of_mem ((hmem t).mpr ((hdst c hc t).mpr (.inl ht)))
        · -- what follows avoids the labels checked now
          intro c hc hdom
          obtain ⟨t, ht⟩ := hpart.exists_rel hdom
          have hc : labels.getLsbD c = true := hc
          have := ((hor c).mp ((hrel c t).mp ht).1).2
          rw [hc] at this
          cases this.symm
        · rw [hch, BitVec.getLsbD_or, Bool.or_eq_true]
          have := hfresh c
          tauto
        · rw [rel_cons, hrel, hor]
          show (labels.getLsbD c = true ∧ t ∈ sortAndDedupDstBuf dst) ∨ _ ↔ _
          by_cases hc : labels.getLsbD c = true
          · obtain ⟨hel, hunchecked⟩ := hfresh c hc
            have hdom : Piece.Dom (el :: rl) c := dom_cons.mpr (.inl hel)
            rw [hmem, hdst c hc, hrl.mem_dst_iff mem_cons_self hel]
            simp only [hc, hunchecked, hdom, true_and, Bool.true_eq_false, false_and, or_false]
          · simp only [hc, Bool.false_eq_true, false_and, false_or, and_true]

theorem combineRight_spec {rr : List Piece} (hrr : Partition rr) (checked : Symbols) :
    Partition (combineRight checked rr) ∧
      ∀ c t, Piece.Rel (combineRight checked rr) c t ↔
        checked.getLsbD c = false ∧ Piece.Rel rr c t := by
  induction rr with
  | nil => exact ⟨Partition.nil, by simp [combineRight]⟩
  | cons er rr ih =>
    obtain ⟨hpart, hrel⟩ := ih hrr.tail
    -- the left side may have taken all labels of `er`
    by_cases hdone : er.labels &&& ~~~checked = 0
    · have heq : combineRight checked (er :: rr) = combineRight checked rr := by
        simp [combineRight, hdone]
      rw [heq]
      refine ⟨hpart, fun c t => ?_⟩
      have hnot : ∀ c, er.has c = true → ¬ checked.getLsbD c = false := by
        intro c hc hcc
        have hex : ∃ c : Byte, (er.labels &&& ~~~checked).getLsbD c = true :=
          ⟨c, has_unchecked.mpr ⟨hc, hcc⟩⟩
        exact (symbols_ne_zero_iff _).mpr hex hdone
      rw [hrel, rel_cons]
      tauto
    · have heq : combineRight checked (er :: rr) =
          ⟨er.dst, er.labels &&& ~~~checked⟩ :: combineRight checked rr := by
        exact filterMap_cons_some (if_neg hdone)
      have hproper := hrr.proper er mem_cons_self
      rw [heq]
      refine ⟨hpart.cons ⟨hdone, hproper.dst, hproper.ascending⟩ ?_, fun c t => ?_⟩
      · intro c hc hdom
        obtain ⟨t, ht⟩ := hpart.exists_rel hdom
        obtain ⟨q, hq, hqc, -⟩ := ((hrel c t).mp ht).2
        have := (pairwise_cons.mp hrr.apart).1 q hq c (has_unchecked.mp hc).1
        rw [hqc] at this
        cases this.symm
      · rw [rel_cons, hrel, rel_cons]
        have : Piece.has ⟨er.dst, er.labels &&& ~~~checked⟩ c = true ↔
            er.has c = true ∧ checked.getLsbD c = false := has_unchecked
        tauto

/-- Combining two partitions gives a partition of the edges of both. -/
theorem combinePieces_spec {ra rb : List Piece} (ha : Partition ra) (hb : Partition rb) :
    Partition (combinePieces ra rb) ∧
      ∀ c t, Piece.Rel (combinePieces ra rb) c t ↔ Piece.Rel ra c t ∨ Piece.Rel rb c t := by
  -- whichever side is on the left
  have hmain : ∀ {rl rr : List Piece}, Partition rl → Partition rr →
      Partition ((combineLeft rr (256 + rl.length) 0 rl).1 ++
        combineRight (combineLeft rr (256 + rl.length) 0 rl).2 rr) ∧
      ∀ c t, Piece.Rel ((combineLeft rr (256 + rl.length) 0 rl).1 ++
        combineRight (combineLeft rr (256 + rl.length) 0 rl).2 rr) c t ↔
          Piece.Rel rl c t ∨ Piece.Rel rr c t := by
    intro rl rr hl hr
    obtain ⟨hleft, hch, hlrel⟩ := combineLeft_spec rr
      (show labelCount (~~~(0 : Symbols)) + rl.length ≤ 256 + rl.length from
        Nat.add_le_add_right (labelCount_le _) _) hl
    generalize combineLeft rr (256 + rl.length) 0 rl = r at hleft hch hlrel
    obtain ⟨left, checked⟩ := r
    obtain ⟨hright, hrrel⟩ := combineRight_spec hr checked
    simp only [BitVec.ofNat_eq_ofNat, BitVec.getLsbD_zero, Bool.false_eq_true, false_or,
      true_and] at hch hlrel
    constructor
    · refine hleft.append hright fun c hdom hdom' => ?_
      obtain ⟨t, ht⟩ := hleft.exists_rel hdom
      obtain ⟨t', ht'⟩ := hright.exists_rel hdom'
      have hin := (hch c).mpr ((hlrel c t).mp ht).1
      rw [((hrrel c t').mp ht').1] at hin
      cases hin
    · intro c t
      rw [rel_append, hlrel, hrrel, ← Bool.not_eq_true, hch]
      have hdom : Piece.Rel rl c t → Piece.Dom rl c := Piece.Rel.dom
      tauto
  by_cases hlen : ra.length ≤ rb.length
  · have heq : combinePieces ra rb = (combineLeft rb (256 + ra.length) 0 ra).1 ++
        combineRight (combineLeft rb (256 + ra.length) 0 ra).2 rb := by
      simp only [combinePieces, if_pos hlen, if_neg (not_lt.mpr hlen)]
    rw [heq]
    exact hmain ha hb
  · have heq : combinePieces ra rb = (combineLeft ra (256 + rb.length) 0 rb).1 ++
        combineRight (combineLeft ra (256 + rb.length) 0 rb).2 ra := by
      simp only [combinePieces, if_neg hlen, if_pos (not_le.mp hlen)]
    rw [heq]
    obtain ⟨hpart, hrel⟩ := hmain hb ha
    exact ⟨hpart, fun c t => (hrel c t).trans or_comm⟩

end Libfsm
