import Libfsm.Print.Ir

/-!
# The IR Is Faithful

What `make_ir` writes for a state decodes to the state's transitions.

- `ungroup`: the ranges of a list of groups, with their destinations
- `makeGroups_spec`: the groups are the edges that were kept
- `findCoverage_spec`, `mem_makeHoles`: the symbols covered, and the ranges that are not
- `makeState_decode`: the strategy decodes to the transitions, as far as 24 bits can tell
- `makeState_isSome`: no assertion fails
- `makeIr_faithful_iff`: the DFAs for which `make_ir` succeeds and is faithful
-/

namespace Libfsm

open Lib
open List hiding nil cons count
open Option hiding some none or_assoc

variable {groups : List IrGroup} {c : Byte} {t : ℕ} {edges : EdgeSet} {mode : Option ℕ}
  {st : IrStrategy}

/-! ## §1 Groups -/

/-- The ranges of a list of groups, with their destinations. -/
def ungroup (groups : List IrGroup) : List (Run 256 ℕ) :=
  groups.flatMap fun g => g.ranges.map fun r => ⟨r, g.toState⟩

theorem ungroup_cons (g : IrGroup) (gs : List IrGroup) :
    ungroup (g :: gs) = (g.ranges.map fun r => ⟨r, g.toState⟩) ++ ungroup gs := by
  simp [ungroup]

theorem ungroup_groupRanges (l : List (Run 256 ℕ)) : ungroup (groupRanges l) = l := by
  induction l with
  | nil => rfl
  | cons r rs ih =>
    rw [groupRanges]
    split
    · rename_i h
      rw [h] at ih
      rw [ungroup_cons, ih]
      rfl
    · rename_i g gs h
      rw [h] at ih
      split
      · rename_i hto
        rw [ungroup_cons] at ih ⊢
        rw [map_cons, cons_append, ih, hto]
      · rw [ungroup_cons, ih]
        rfl

theorem labels_ungroup : Labels (ungroup groups) c t ↔ ∃ g ∈ groups, g.Has c ∧ g.toState = t := by
  simp only [Labels, ungroup, mem_flatMap, List.mem_map, IrGroup.Has]
  constructor
  · rintro ⟨r, ⟨g, hg, r', hr', rfl⟩, hc, rfl⟩
    exact ⟨g, hg, ⟨r', hr', hc⟩, rfl⟩
  · rintro ⟨g, hg, ⟨r', hr', hc⟩, rfl⟩
    exact ⟨_, ⟨g, hg, r', hr', rfl⟩, hc, rfl⟩

/-- In tidy groups the first group with a symbol is the only one. -/
theorem findGroup_eq_some_iff (h : Tidy (ungroup groups)) :
    findGroup groups c = some t ↔ Labels (ungroup groups) c t := by
  unfold findGroup
  rw [map_eq_some_iff]
  constructor
  · rintro ⟨g, hg, rfl⟩
    exact labels_ungroup.mpr ⟨g, mem_of_find?_eq_some hg, by simpa using find?_some hg, rfl⟩
  · intro hl
    obtain ⟨g, hg, hc, -⟩ := labels_ungroup.mp hl
    obtain ⟨g', hg'⟩ := Option.isSome_iff_exists.mp
      (find?_isSome.mpr ⟨g, hg, decide_eq_true hc⟩ :
        (groups.find? fun g => decide (g.Has c)).isSome = true)
    have hl' : Labels (ungroup groups) c g'.toState := labels_ungroup.mpr
      ⟨g', mem_of_find?_eq_some hg', by simpa using find?_some hg', rfl⟩
    exact ⟨g', hg', h.labels_unique hl' hl⟩

theorem findGroup_eq_none_iff : findGroup groups c = none ↔ ∀ t, ¬ Labels (ungroup groups) c t := by
  unfold findGroup
  rw [map_eq_none_iff, find?_eq_none]
  simp only [decide_eq_true_eq, labels_ungroup, not_exists, not_and]
  constructor
  · intro h t g hg hc
    exact absurd hc (h g hg)
  · intro h g hg hc
    exact h g.toState g hg hc rfl

/-! ## §2 The Edges That Are Kept -/

theorem labels_keptRanges {b : ℕ} :
    Labels (keptRanges edges mode) c b ↔
      (∃ t, edges.HasEdge c t ∧ t % 2 ^ 24 = b) ∧ mode ≠ some b := by
  simp only [Labels, keptRanges, List.mem_map, mem_filter, decide_eq_true_eq]
  constructor
  · rintro ⟨r, ⟨e, ⟨he, hmode⟩, rfl⟩, hc, rfl⟩
    obtain ⟨t, ht, hst⟩ := mem_edgeSetOrderedEdges.mp he
    obtain rfl : e.symbol = c := le_antisymm hc.1 hc.2
    refine ⟨⟨t, ht, ?_⟩, hmode⟩
    rw [hst, BitVec.toNat_ofNat]
  · rintro ⟨⟨t, ht, rfl⟩, hmode⟩
    have htrunc : (BitVec.ofNat 24 t).toNat = t % 2 ^ 24 := BitVec.toNat_ofNat t 24
    refine ⟨⟨⟨c, c⟩, t % 2 ^ 24⟩, ⟨⟨BitVec.ofNat 24 t, c⟩, ⟨?_, ?_⟩, ?_⟩, ⟨le_rfl, le_rfl⟩, rfl⟩
    · exact mem_edgeSetOrderedEdges.mpr ⟨t, ht, rfl⟩
    · exact hmode
    · rw [htrunc]

theorem tidy_keptRanges (hf : edges.Functional) (mode : Option ℕ) :
    Tidy (keptRanges edges mode) := by
  refine ⟨?_, ?_⟩
  · intro r hr
    obtain ⟨e, -, rfl⟩ := List.mem_map.mp hr
    exact le_refl e.symbol
  · unfold keptRanges
    rw [pairwise_map]
    refine ((pairwise_edgeSetOrderedEdges hf).filter _).imp ?_
    intro e e' hne c hc hc'
    exact hne ((le_antisymm hc.1 hc.2).trans (le_antisymm hc'.1 hc'.2).symm)

/-- **The groups are the edges that were kept**, in tidy ranges. -/
theorem makeGroups_spec (hf : edges.Functional) (h : makeGroups edges mode = some groups) :
    Tidy (ungroup groups) ∧ ∀ c b, Labels (ungroup groups) c b ↔
      (∃ t, edges.HasEdge c t ∧ t % 2 ^ 24 = b) ∧ mode ≠ some b := by
  unfold makeGroups at h
  split at h
  · cases h
  · cases h
    rw [ungroup_groupRanges]
    have h₁ := tidy_keptRanges hf mode
    have h₂ := tidy_joinRuns h₁
    have hperm := (perm_insertionSort rangeLe (joinRuns (keptRanges edges mode))).symm
    have h₃ := h₂.perm hperm
    refine ⟨tidy_joinRuns h₃, fun c b => ?_⟩
    rw [labels_joinRuns h₃, ← Labels.perm hperm, labels_joinRuns h₁, labels_keptRanges]

theorem makeGroups_isSome (ht : edges.HasEdge c t) (hmode : mode ≠ some (t % 2 ^ 24)) :
    (makeGroups edges mode).isSome = true := by
  have hl : Labels (keptRanges edges mode) c (t % 2 ^ 24) :=
    labels_keptRanges.mpr ⟨⟨t, ht, rfl⟩, hmode⟩
  have hne : keptRanges edges mode ≠ [] := by
    obtain ⟨r, hr, -⟩ := hl
    exact ne_nil_of_mem hr
  rw [makeGroups, if_neg hne, isSome_some]

/-! ## §3 Coverage And Holes -/

private theorem foldlM_coverSymbol {l : List Byte} (hl : l.Nodup) {bm : Symbols}
    (hbm : ∀ c ∈ l, bm.getLsbD c = false) :
    ∃ bm', l.foldlM coverSymbol bm = some bm' ∧
      ∀ c : Byte, bm'.getLsbD c = true ↔ bm.getLsbD c = true ∨ c ∈ l := by
  induction l generalizing bm with
  | nil => exact ⟨bm, rfl, fun c => by simp⟩
  | cons e l ih =>
    obtain ⟨he, hl'⟩ := nodup_cons.mp hl
    have hstep : coverSymbol bm e = some (bm ||| BitVec.twoPow 256 e) := by
      rw [coverSymbol, hbm e mem_cons_self]
      rfl
    have hbit : ∀ c : Byte, (bm ||| BitVec.twoPow 256 e).getLsbD c = true ↔
        bm.getLsbD c = true ∨ c = e := by
      intro c
      rw [BitVec.getLsbD_or, Bool.or_eq_true, getLsbD_twoPow_iff]
    have hclear : ∀ c ∈ l, (bm ||| BitVec.twoPow 256 e).getLsbD c = false := by
      intro c hc
      rw [Bool.eq_false_iff, ne_eq, hbit, hbm c (mem_cons_of_mem e hc)]
      rintro (h | rfl)
      · cases h
      · exact he hc
    obtain ⟨bm', hbm', hcov⟩ := ih hl' hclear
    refine ⟨bm', ?_, fun c => ?_⟩
    · rw [foldlM_cons, hstep]
      exact hbm'
    · rw [hcov, hbit, mem_cons, or_assoc]

/-- `find_coverage` on tidy groups: no symbol is covered twice. -/
theorem findCoverage_spec (h : Tidy (ungroup groups)) :
    ∃ bm, findCoverage groups = some bm ∧
      ∀ c : Byte, bm.getLsbD c = true ↔ ∃ t, Labels (ungroup groups) c t := by
  have hloop : ∀ (l : List IrRange) (bm : Symbols), (∀ r ∈ l, r.Nonempty) →
      l.Pairwise Span.Apart → (∀ r ∈ l, ∀ c, r.Has c → bm.getLsbD c = false) →
      ∃ bm', l.foldlM coverRange bm = some bm' ∧
        ∀ c : Byte, bm'.getLsbD c = true ↔ bm.getLsbD c = true ∨ ∃ r ∈ l, r.Has c := by
    intro l
    induction l with
    | nil => exact fun bm _ _ _ => ⟨bm, rfl, fun c => by simp⟩
    | cons r l ih =>
      intro bm hne hapart hclear
      obtain ⟨hr, hl⟩ := pairwise_cons.mp hapart
      have hclear₁ : ∀ c ∈ (finRange 256).filter fun e => r.Has e, bm.getLsbD c = false := by
        intro c hc
        exact hclear r mem_cons_self c (by simpa using hc)
      obtain ⟨bm₁, hbm₁, hcov₁⟩ :=
        foldlM_coverSymbol ((nodup_finRange 256).filter _) hclear₁
      have hstep : coverRange bm r = some bm₁ := by
        rw [coverRange, if_pos (hne r mem_cons_self), hbm₁]
      simp only [mem_filter, mem_finRange, true_and, decide_eq_true_eq] at hcov₁
      -- ranges that are apart do not meet the assertion that a bit is clear
      have hclear₂ : ∀ r' ∈ l, ∀ c, r'.Has c → bm₁.getLsbD c = false := by
        intro r' hr' c hc
        rw [Bool.eq_false_iff, ne_eq, hcov₁, hclear r' (mem_cons_of_mem r hr') c hc]
        rintro (h' | h')
        · cases h'
        · exact hr r' hr' c h' hc
      obtain ⟨bm₂, hbm₂, hcov₂⟩ :=
        ih bm₁ (fun r' hr' => hne r' (mem_cons_of_mem r hr')) hl hclear₂
      refine ⟨bm₂, ?_, fun c => ?_⟩
      · rw [foldlM_cons, hstep]
        exact hbm₂
      · rw [hcov₂, hcov₁]
        simp only [mem_cons, exists_eq_or_imp, or_assoc]
  have hflat : (ungroup groups).map Run.toSpan = groups.flatMap IrGroup.ranges := by
    unfold ungroup
    rw [map_flatMap]
    congr 1
    funext g
    rw [List.map_map]
    exact map_id'' (fun _ => rfl) _
  have hapart := h.apart
  rw [← pairwise_map (f := Run.toSpan) (R := Span.Apart), hflat] at hapart
  have hne : ∀ r ∈ groups.flatMap IrGroup.ranges, r.Nonempty := by
    intro r hr
    rw [← hflat] at hr
    obtain ⟨r', hr', rfl⟩ := List.mem_map.mp hr
    exact h.nonempty r' hr'
  obtain ⟨bm, hbm, hcov⟩ := hloop (groups.flatMap IrGroup.ranges) 0 hne hapart
    fun _ _ c _ => BitVec.getLsbD_zero
  refine ⟨bm, hbm, fun c => ?_⟩
  rw [hcov, ← hflat]
  simp [Labels]

theorem bmCount_eq_iff (bm : Symbols) : bmCount bm = 256 ↔ ∀ c : Byte, bm.getLsbD c = true := by
  have hlen : (finRange 256).length = 256 := length_finRange
  unfold bmCount
  constructor
  · intro h c
    have hall := length_filter_eq_length_iff.mp (h.trans hlen.symm)
    exact hall c (mem_finRange c)
  · intro h
    rw [filter_eq_self.mpr fun c _ => h c, hlen]

theorem bmCount_le (bm : Symbols) : bmCount bm ≤ 256 := by
  exact (length_filter_le _ _).trans (le_of_eq length_finRange)

/-- `bm_next` finds the first position with the value, or 256. -/
theorem bmNext_spec (bm : Symbols) (i : ℕ) (value : Bool) :
    (bmNext bm i value ≤ 256) ∧
      (bmNext bm i value < 256 → i ≤ bmNext bm i value ∧
        bm.getLsbD (bmNext bm i value) = value) ∧
      ∀ k, i ≤ k → k < bmNext bm i value → bm.getLsbD k ≠ value := by
  unfold bmNext
  rcases hfind : (range' i (256 - i)).find? fun n => bm.getLsbD n == value with _ | m
  · rw [getD_none]
    refine ⟨le_rfl, fun h => absurd h (lt_irrefl _), ?_⟩
    intro k hik hk
    simpa using find?_range'_eq_none.mp hfind k hik (by omega)
  · rw [getD_some]
    obtain ⟨hvalue, hm, hbefore⟩ := find?_range'_eq_some.mp hfind
    rw [mem_range'_1] at hm
    refine ⟨by omega, fun _ => ⟨hm.1, by simpa using hvalue⟩, fun k hik hk => ?_⟩
    simpa using hbefore k hik hk

/-- The holes from a position on: ranges of symbols that are not covered. -/
theorem makeHolesFrom_spec (bm : Symbols) {fuel i : ℕ} (hfuel : 256 < fuel + i) :
    (∀ c : Byte, (∃ r ∈ makeHolesFrom bm fuel i, r.Has c) ↔ i ≤ c.val ∧ bm.getLsbD c = false) ∧
      (∀ r ∈ makeHolesFrom bm fuel i, r.Nonempty) ∧
      (makeHolesFrom bm fuel i).Pairwise Span.Apart := by
  induction fuel generalizing i with
  | zero =>
    refine ⟨?_, ?_, List.Pairwise.nil⟩
    · simp only [makeHolesFrom, not_mem_nil, false_and, exists_false, false_iff]
      omega
    · intro r hr
      cases hr
  | succ fuel ih =>
    obtain ⟨hle, hlo, hbefore⟩ := bmNext_spec bm i false
    rw [makeHolesFrom]
    split
    · rename_i hlt
      obtain ⟨hile, hbit⟩ := hlo hlt
      obtain ⟨hhile, hhi, hhibefore⟩ := bmNext_spec bm (bmNext bm i false + 1) true
      generalize bmNext bm i false = lo at *
      generalize bmNext bm (lo + 1) true = hi at *
      have hgt : lo < hi := by
        omega
      obtain ⟨h₁, h₂, h₃⟩ := ih (i := hi + 1) (by omega)
      have hhas : ∀ c : Byte, (⟨Fin.ofNat 256 lo, Fin.ofNat 256 (hi - 1)⟩ : IrRange).Has c ↔
          lo ≤ c.val ∧ c.val < hi := by
        intro c
        have hlo' : (Fin.ofNat 256 lo).val = lo := Nat.mod_eq_of_lt hlt
        have hhi' : (Fin.ofNat 256 (hi - 1)).val = hi - 1 := Nat.mod_eq_of_lt (by omega)
        show (Fin.ofNat 256 lo).val ≤ c.val ∧ c.val ≤ (Fin.ofNat 256 (hi - 1)).val ↔ _
        omega
      have hclear : ∀ k, lo ≤ k → k < hi → bm.getLsbD k = false := by
        intro k hk hk'
        rcases Nat.eq_or_lt_of_le hk with rfl | hk
        · exact hbit
        · exact Bool.eq_false_iff.mpr (hhibefore k hk hk')
      refine ⟨fun c => ?_, ?_, ?_⟩
      · simp only [mem_cons, exists_eq_or_imp, hhas, h₁]
        constructor
        · rintro (⟨h, h'⟩ | ⟨h, h'⟩)
          · exact ⟨by omega, hclear c h h'⟩
          · exact ⟨by omega, h'⟩
        · rintro ⟨h, h'⟩
          have hlec : lo ≤ c.val := by
            by_contra hlt'
            exact hbefore c h (by omega) h'
          rcases lt_trichotomy c.val hi with hc | hc | hc
          · exact .inl ⟨hlec, hc⟩
          · -- the position after the hole is covered
            have hset := (hhi (by omega)).2
            rw [← hc, h'] at hset
            cases hset
          · exact .inr ⟨hc, h'⟩
      · intro r hr
        rcases mem_cons.mp hr with rfl | hr
        · have hself := (hhas ⟨lo, hlt⟩).mpr ⟨le_rfl, hgt⟩
          exact le_trans hself.1 hself.2
        · exact h₂ r hr
      · refine pairwise_cons.mpr ⟨?_, h₃⟩
        intro r hr c hc hc'
        have hc₁ := (hhas c).mp hc
        have hc₂ := ((h₁ c).mp ⟨r, hr, hc'⟩).1
        omega
    · refine ⟨fun c => ?_, ?_, List.Pairwise.nil⟩
      · simp only [not_mem_nil, false_and, exists_false, false_iff, not_and]
        intro h
        exact hbefore c h (by omega)
      · intro r hr
        cases hr

/-! ## §4 The Mode And The Largest Group -/

/-- The loop of `fsm_findmode` keeps the largest frequency, and a state that has it. -/
private theorem foldl_findmodeStep (l : List EdgeGroup) (mode : Option ℕ × ℕ) :
    mode.2 ≤ (l.foldl findmodeStep mode).2 ∧
      (∀ g ∈ l, g.labels.length ≤ (l.foldl findmodeStep mode).2) ∧
      (l.foldl findmodeStep mode = mode ∨ ∃ g ∈ l, mode.2 < g.labels.length ∧
        l.foldl findmodeStep mode = (some g.toState, g.labels.length)) := by
  induction l generalizing mode with
  | nil => simp
  | cons g l ih =>
    obtain ⟨h₁, h₂, h₃⟩ := ih (findmodeStep mode g)
    have hstep : mode.2 ≤ (findmodeStep mode g).2 ∧ g.labels.length ≤ (findmodeStep mode g).2 ∧
        (findmodeStep mode g = mode ∨ mode.2 < g.labels.length ∧
          findmodeStep mode g = (some g.toState, g.labels.length)) := by
      unfold findmodeStep
      split
      · rename_i h
        exact ⟨le_of_lt h, le_rfl, .inr ⟨h, rfl⟩⟩
      · rename_i h
        exact ⟨le_rfl, Nat.le_of_not_lt h, .inl rfl⟩
    rw [foldl_cons]
    refine ⟨hstep.1.trans h₁, ?_, ?_⟩
    · intro g' hg'
      rcases mem_cons.mp hg' with rfl | hg'
      · exact hstep.2.1.trans h₁
      · exact h₂ g' hg'
    · rcases h₃ with h₃ | ⟨g', hg', hlt, h₃⟩
      · rw [h₃]
        rcases hstep.2.2 with h | ⟨hlt, h⟩
        · exact .inl h
        · exact .inr ⟨g, mem_cons_self, hlt, h⟩
      · exact .inr ⟨g', mem_cons_of_mem g hg', lt_of_le_of_lt hstep.1 hlt, h₃⟩

/-- The mode is a destination, with as many labels as any. -/
theorem fsmFindmode_eq_some {freq : ℕ} (h : fsmFindmode edges = some (t, freq)) :
    ∃ g ∈ edgeSetGroups edges, g.toState = t ∧ g.labels.length = freq ∧
      ∀ g' ∈ edgeSetGroups edges, g'.labels.length ≤ freq := by
  unfold fsmFindmode at h
  obtain ⟨-, h₂, h₃⟩ := foldl_findmodeStep (edgeSetGroups edges) (none, 1)
  rcases h₃ with h₃ | ⟨g, hg, -, h₃⟩
  · rw [h₃] at h
    cases h
  · rw [h₃] at h h₂
    simp only [map_some, Option.some.injEq, Prod.mk.injEq] at h
    exact ⟨g, hg, h.1, h.2, h.2 ▸ h₂⟩

/-- There is a mode unless every destination has one label only. -/
theorem fsmFindmode_isSome_iff :
    (fsmFindmode edges).isSome = true ↔ ∃ g ∈ edgeSetGroups edges, 1 < g.labels.length := by
  unfold fsmFindmode
  obtain ⟨-, h₂, h₃⟩ := foldl_findmodeStep (edgeSetGroups edges) (none, 1)
  rcases h₃ with h₃ | ⟨g, hg, hlt, h₃⟩
  · rw [h₃] at h₂ ⊢
    refine iff_of_false (by simp) ?_
    intro ⟨g, hg, hlt⟩
    exact absurd (h₂ g hg) (Nat.not_le_of_gt hlt)
  · rw [h₃]
    exact iff_of_true (by simp) ⟨g, hg, hlt⟩

theorem EdgeGroup.length_labels_le (g : EdgeGroup) : g.labels.length ≤ 256 :=
  (length_filter_le _ _).trans (le_of_eq length_finRange)

theorem EdgeGroup.length_labels_eq_iff (g : EdgeGroup) :
    g.labels.length = 256 ↔ ∀ c, g.has c = true :=
  bmCount_eq_iff g.symbols

/-- Two labels make a frequency above one. -/
theorem EdgeGroup.one_lt_length_labels_iff (g : EdgeGroup) :
    1 < g.labels.length ↔ ∃ c c', c ≠ c' ∧ g.has c = true ∧ g.has c' = true := by
  have hnodup : g.labels.Nodup := (nodup_finRange 256).filter _
  rw [← toFinset_card_of_nodup hnodup, Finset.one_lt_card]
  simp only [List.mem_toFinset, EdgeGroup.mem_labels]
  constructor
  · intro ⟨c, hc, c', hc', hne⟩
    exact ⟨c, c', hne, hc, hc'⟩
  · intro ⟨c, c', hne, hc, hc'⟩
    exact ⟨c, hc, c', hc', hne⟩

/-- A largest group of positive size is one of the groups. -/
theorem groupMax_lt (h : 0 < (groupMax groups).1) : (groupMax groups).2 < groups.length := by
  have hloop : ∀ (l : List (IrGroup × ℕ)) (curr : ℕ × ℕ), (∀ p ∈ l, p.2 < groups.length) →
      (0 < curr.1 → curr.2 < groups.length) →
      0 < (l.foldl (fun curr p => if curr.1 < p.1.size then (p.1.size, p.2) else curr) curr).1 →
      (l.foldl (fun curr p => if curr.1 < p.1.size then (p.1.size, p.2) else curr) curr).2 <
        groups.length := by
    intro l
    induction l with
    | nil => exact fun curr _ hcurr hpos => hcurr hpos
    | cons p l ih =>
      intro curr hl hcurr hpos
      apply ih _ (fun p' hp' => hl p' (mem_cons_of_mem p hp')) _ hpos
      dsimp only
      split
      · exact fun _ => hl p mem_cons_self
      · exact hcurr
  apply hloop _ _ _ (fun h0 => absurd h0 (lt_irrefl 0)) h
  intro p hp
  exact (mem_zipIdx' hp).1

/-! ## §5 What A Strategy Decodes To -/

/-- The groups of a strategy are disjoint, no range is empty, and no error range meets a
group. -/
structure IrStrategy.WellFormed (st : IrStrategy) : Prop where
  nonempty : ∀ g ∈ st.groups, ∀ r ∈ g.ranges, r.Nonempty
  disjoint : st.groups.Pairwise fun g g' => ∀ c, g.Has c → ¬ g'.Has c
  error_nonempty : ∀ r ∈ st.errorRanges, r.Nonempty
  error_disjoint : ∀ r ∈ st.errorRanges, ∀ g ∈ st.groups, ∀ c, r.Has c → ¬ g.Has c

theorem disjoint_of_tidy (h : Tidy (ungroup groups)) :
    (∀ g ∈ groups, ∀ r ∈ g.ranges, r.Nonempty) ∧
      groups.Pairwise fun g g' => ∀ c, g.Has c → ¬ g'.Has c := by
  refine ⟨?_, ?_⟩
  · intro g hg r hr
    exact h.nonempty ⟨r, g.toState⟩
      (mem_flatMap.mpr ⟨g, hg, List.mem_map.mpr ⟨r, hr, rfl⟩⟩)
  · have happart := h.apart
    rw [ungroup, pairwise_flatMap] at happart
    refine happart.2.imp ?_
    rintro g g' hgg' c ⟨r, hr, hc⟩ ⟨r', hr', hc'⟩
    exact hgg' ⟨r, g.toState⟩ (List.mem_map.mpr ⟨r, hr, rfl⟩) ⟨r', g'.toState⟩
      (List.mem_map.mpr ⟨r', hr', rfl⟩) c hc hc'

/-- A strategy without error ranges is well formed if its groups are tidy. -/
theorem IrStrategy.wellFormed_of_tidy (h : Tidy (ungroup st.groups)) (herr : st.errorRanges = []) :
    st.WellFormed where
  nonempty := (disjoint_of_tidy h).1
  disjoint := (disjoint_of_tidy h).2
  error_nonempty _ hr := absurd (herr ▸ hr) not_mem_nil
  error_disjoint _ hr := absurd (herr ▸ hr) not_mem_nil

section Decode

variable {f : Fsm} {s : ℕ}

/-- The groups without a mode decode to the transitions, cut to 24 bits. -/
theorem findGroup_eq_next (hdfa : f.IsDfa) (htidy : Tidy (ungroup groups))
    (hlabels : ∀ c b, Labels (ungroup groups) c b ↔ ∃ t, f.Edge s c t ∧ t % 2 ^ 24 = b) (c : Byte) :
    findGroup groups c = (f.next s c).map (· % 2 ^ 24) := by
  rcases hnext : f.next s c with _ | t
  · rw [map_none, findGroup_eq_none_iff]
    intro b hb
    obtain ⟨t, ht, -⟩ := (hlabels c b).mp hb
    rw [hdfa.next_eq_some_iff.mpr ht] at hnext
    exact some_ne_none t hnext
  · rw [map_some, findGroup_eq_some_iff htidy, hlabels]
    exact ⟨t, hdfa.next_eq_some_iff.mp hnext, rfl⟩

/-- A complete state with a mode: either all symbols lead there, or the groups hold the
others. -/
theorem makeDominant_decode (hdfa : f.IsDfa) (hcomplete : ∀ c, ∃ t, f.Edge s c t) {mode : ℕ × ℕ}
    (hmode : fsmFindmode (f.state s).edges = some mode)
    (h : makeDominant f.statecount (f.state s).edges mode = some st) :
    st.WellFormed ∧ ((∃ t, st = .irSame t ∧ ∀ c, f.Edge s c t) ∨
      ∀ c, st.decode c = (f.next s c).map (· % 2 ^ 24)) := by
  unfold makeDominant at h
  split at h
  · split at h
    · rename_i hfreq
      cases h
      refine ⟨IrStrategy.wellFormed_of_tidy ⟨by simp [ungroup, IrStrategy.groups], by
        simp [ungroup, IrStrategy.groups]⟩ rfl, .inl ⟨mode.1, rfl, ?_⟩⟩
      obtain ⟨g, hg, hto, hlen, -⟩ := fsmFindmode_eq_some hmode
      intro c
      have hall := g.length_labels_eq_iff.mp (hlen.trans hfreq)
      exact ⟨g, (mem_edgeSetGroups.mp hg).1, hto, hall c⟩
    · obtain ⟨groups, hgroups, rfl⟩ := Option.map_eq_some_iff.mp h
      obtain ⟨htidy, hlabels⟩ := makeGroups_spec (hdfa.functional s) hgroups
      refine ⟨IrStrategy.wellFormed_of_tidy htidy rfl, .inr fun c => ?_⟩
      obtain ⟨t, ht⟩ := hcomplete c
      rw [hdfa.next_eq_some_iff.mpr ht]
      show some ((findGroup groups c).getD mode.1) = some (t % 2 ^ 24)
      by_cases hm : mode.1 = t % 2 ^ 24
      · -- an edge to the mode is in no group
        have hnone : findGroup groups c = none := by
          rw [findGroup_eq_none_iff]
          intro b hb
          obtain ⟨⟨t', ht', rfl⟩, hne⟩ := (hlabels c b).mp hb
          rw [hdfa.functional s c t' t ht' ht] at hne
          exact hne (congrArg some hm)
        rw [hnone, getD_none, hm]
      · have hsome : findGroup groups c = some (t % 2 ^ 24) := by
          rw [findGroup_eq_some_iff htidy, hlabels]
          exact ⟨⟨t, ht, rfl⟩, fun h' => hm (Option.some.inj h')⟩
        rw [hsome, getD_some]
  · cases h

/-- Taking one group out of a list of groups. -/
theorem ungroup_eraseIdx_perm {j : ℕ} (hj : j < groups.length) :
    (ungroup groups).Perm (ungroup [groups[j]] ++ ungroup (groups.eraseIdx j)) := by
  have hperm : groups.Perm (groups[j] :: groups.eraseIdx j) :=
    (getElem_cons_eraseIdx_perm hj).symm
  have h := hperm.flatMap_right fun g => g.ranges.map fun r => (⟨r, g.toState⟩ : Run 256 ℕ)
  simpa [ungroup] using h

/-- The error strategy: the largest group is the default, and the holes are errors. -/
theorem irError_decode (hdfa : f.IsDfa) (htidy : Tidy (ungroup groups))
    (hlabels : ∀ c b, Labels (ungroup groups) c b ↔ ∃ t, f.Edge s c t ∧ t % 2 ^ 24 = b)
    {bm : Symbols} (hbm : ∀ c : Byte, bm.getLsbD c = true ↔ ∃ t, Labels (ungroup groups) c t)
    {j : ℕ} (hj : j < groups.length) :
    (IrStrategy.irError (groups.getD j ⟨0, []⟩).toState (makeHoles bm)
        (groups.eraseIdx j)).WellFormed ∧
      ∀ c, (IrStrategy.irError (groups.getD j ⟨0, []⟩).toState (makeHoles bm)
        (groups.eraseIdx j)).decode c = (f.next s c).map (· % 2 ^ 24) := by
  have hget : groups.getD j ⟨0, []⟩ = groups[j] := by
    rw [getD_eq_getElem?_getD, getElem?_eq_getElem hj, getD_some]
  obtain ⟨hholes, hne, -⟩ := makeHolesFrom_spec bm (show 256 < 257 + 0 by omega)
  have hhole : ∀ c : Byte, (∃ r ∈ makeHoles bm, r.Has c) ↔ ¬ ∃ t, Labels (ungroup groups) c t := by
    intro c
    rw [← hbm, Bool.not_eq_true]
    exact (hholes c).trans (and_iff_right (Nat.zero_le _))
  have hperm := ungroup_eraseIdx_perm hj
  have htidy' := htidy.perm hperm
  have hrest : Tidy (ungroup (groups.eraseIdx j)) :=
    ⟨fun r hr => htidy'.nonempty r (mem_append_right _ hr),
      (pairwise_append.mp htidy'.apart).2.1⟩
  have hsplit : ∀ c t, Labels (ungroup groups) c t ↔
      (groups[j].Has c ∧ groups[j].toState = t) ∨ Labels (ungroup (groups.eraseIdx j)) c t := by
    intro c t
    have hone : Labels (ungroup [groups[j]]) c t ↔ groups[j].Has c ∧ groups[j].toState = t := by
      rw [labels_ungroup]
      simp
    rw [Labels.perm hperm, ← hone]
    simp only [Labels, mem_append, or_and_right, exists_or]
  refine ⟨⟨(disjoint_of_tidy hrest).1, (disjoint_of_tidy hrest).2, hne, ?_⟩, fun c => ?_⟩
  · intro r hr g hg c hc hc'
    have hcov : Labels (ungroup groups) c g.toState :=
      (hsplit c _).mpr (.inr (labels_ungroup.mpr ⟨g, hg, hc', rfl⟩))
    exact (hhole c).mp ⟨r, hr, hc⟩ ⟨_, hcov⟩
  · show (if ∃ r ∈ makeHoles bm, r.Has c then none
      else some ((findGroup (groups.eraseIdx j) c).getD (groups.getD j ⟨0, []⟩).toState)) = _
    rw [← findGroup_eq_next hdfa htidy hlabels c, hget]
    split
    · rename_i hc
      exact (findGroup_eq_none_iff.mpr fun t ht => (hhole c).mp hc ⟨t, ht⟩).symm
    · rename_i hc
      obtain ⟨t, ht⟩ := not_not.mp fun h => hc ((hhole c).mpr h)
      rw [(findGroup_eq_some_iff htidy).mpr ht]
      rcases hfind : findGroup (groups.eraseIdx j) c with _ | t'
      · -- only the largest group is left
        rcases (hsplit c t).mp ht with ⟨-, hto⟩ | h
        · rw [getD_none, hto]
        · exact absurd h (findGroup_eq_none_iff.mp hfind t)
      · have ht' := (hsplit c t').mpr (.inr ((findGroup_eq_some_iff hrest).mp hfind))
        rw [getD_some, htidy.labels_unique ht' ht]

/-- **A strategy decodes to the transitions**: exactly where one destination takes all
symbols, and else as far as 24 bits can tell. -/
theorem makeState_decode (hdfa : f.IsDfa) (h : makeState f s = some st) :
    st.WellFormed ∧ ((∃ t, st = .irSame t ∧ ∀ c, f.Edge s c t) ∨
      ∀ c, st.decode c = (f.next s c).map (· % 2 ^ 24)) := by
  unfold makeState at h
  split at h
  · rename_i hempty
    cases h
    refine ⟨IrStrategy.wellFormed_of_tidy ⟨by simp [ungroup, IrStrategy.groups], by
      simp [ungroup, IrStrategy.groups]⟩ rfl, .inr fun c => ?_⟩
    rcases hnext : f.next s c with _ | t
    · rfl
    · exact absurd (Fsm.edge_of_next hnext) ((edgeSetEmpty_eq_true_iff _).mp hempty c t)
  · split at h
    · rename_i hc
      obtain ⟨mode, hmode, h⟩ := Option.bind_eq_some_iff.mp h
      exact makeDominant_decode hdfa (fsmIscomplete_eq_true_iff.mp hc) hmode h
    · obtain ⟨groups, hgroups, h⟩ := Option.bind_eq_some_iff.mp h
      obtain ⟨bm, hbm, h⟩ := Option.bind_eq_some_iff.mp h
      obtain ⟨htidy, hlabels⟩ := makeGroups_spec (hdfa.functional s) hgroups
      have hlabels' : ∀ c b, Labels (ungroup groups) c b ↔ ∃ t, f.Edge s c t ∧ t % 2 ^ 24 = b := by
        intro c b
        rw [hlabels, and_iff_left (some_ne_none b).symm]
        rfl
      obtain ⟨bm', hbm', hcov⟩ := findCoverage_spec htidy
      cases hbm'.symm.trans hbm
      unfold makeIncomplete at h
      dsimp only at h
      split at h
      · -- all symbols covered, in a state that is not complete
        cases h
      · split at h
        · rename_i hlt
          cases h
          have hj := groupMax_lt (Nat.zero_lt_of_lt hlt)
          obtain ⟨hwf, hdec⟩ := irError_decode hdfa htidy hlabels' hcov hj
          exact ⟨hwf, .inr hdec⟩
        · cases h
          exact ⟨IrStrategy.wellFormed_of_tidy htidy rfl,
            .inr (findGroup_eq_next hdfa htidy hlabels')⟩

end Decode

/-! ## §6 Which DFAs Have An IR -/

/-- Every symbol leads somewhere, and no two lead to the same state. -/
def AllDistinct (f : Fsm) (s : ℕ) : Prop :=
  (∀ c, ∃ t, f.Edge s c t) ∧ ∀ c c' t, f.Edge s c t → f.Edge s c' t → c = c'

/-- The states that `make_state` can write down: all symbols lead to one state; or all
destinations fit into 24 bits, and they are not 256 different ones. -/
def IrSupported (f : Fsm) (s : ℕ) : Prop :=
  (∃ t, ∀ c, f.Edge s c t) ∨ (∀ c t, f.Edge s c t → t < 2 ^ 24) ∧ ¬ AllDistinct f s

/-- The IR of an FSM: the same start state and end states, and every strategy is well formed
and decodes to the transitions. -/
structure Ir.Faithful (ir : Ir) (f : Fsm) : Prop where
  start : f.start = some ir.start
  count : ir.states.length = f.statecount
  state : ∀ s < f.statecount, ∃ st, ir.states[s]? = some st ∧ st.isend = fsmIsend f s ∧
    st.strategy.WellFormed ∧ ∀ c, st.strategy.decode c = f.next s c

section Supported

variable {f : Fsm} {s : ℕ}

/-- Where a mode is found, it leads to a strategy. -/
theorem makeDominant_isSome (hf : f.Wf) (hdfa : f.IsDfa) (hcomplete : ∀ c, ∃ t, f.Edge s c t)
    (hwide : (∃ t, ∀ c, f.Edge s c t) ∨ ∀ c t, f.Edge s c t → t < 2 ^ 24) {mode : ℕ × ℕ}
    (hmode : fsmFindmode (f.state s).edges = some mode) :
    (makeDominant f.statecount (f.state s).edges mode).isSome = true := by
  obtain ⟨g, hg, hto, hlen, hmax⟩ := fsmFindmode_eq_some hmode
  obtain ⟨hgmem, c₀, hc₀⟩ := mem_edgeSetGroups.mp hg
  have hedge : f.Edge s c₀ mode.1 := ⟨g, hgmem, hto, hc₀⟩
  unfold makeDominant
  rw [if_pos (hf.edge_lt hedge)]
  split
  · rfl
  · rename_i hfreq
    rw [isSome_map]
    -- some symbol leads elsewhere
    obtain ⟨c, hc⟩ : ∃ c, g.has c = false := by
      by_contra hall
      push Not at hall
      exact hfreq (hlen ▸ g.length_labels_eq_iff.mpr fun c => by simpa using hall c)
    obtain ⟨t, ht⟩ := hcomplete c
    have hne : t ≠ mode.1 := by
      rintro rfl
      obtain ⟨g', hg', hto', hc'⟩ := ht
      rw [EdgeSet.group_eq hg' hgmem (hto'.trans hto.symm), hc] at hc'
      cases hc'
    rcases hwide with ⟨t', ht'⟩ | hwide
    · rw [hdfa.functional s c t t' ht (ht' c)] at hne
      exact absurd (hdfa.functional s c₀ t' mode.1 (ht' c₀) hedge) hne
    · apply makeGroups_isSome ht
      rw [Nat.mod_eq_of_lt (hwide c t ht)]
      exact fun h => hne (Option.some.inj h).symm

/-- **No assertion fails** for a supported state. -/
theorem makeState_isSome (hf : f.Wf) (hdfa : f.IsDfa) (h : IrSupported f s) :
    (makeState f s).isSome = true := by
  unfold makeState
  split
  · rfl
  · rename_i hempty
    split
    · rename_i hc
      have hcomplete := fsmIscomplete_eq_true_iff.mp hc
      have hmode : (fsmFindmode (f.state s).edges).isSome = true := by
        rw [fsmFindmode_isSome_iff]
        -- a destination with two labels
        obtain ⟨c, c', t, hne, hct, hct'⟩ : ∃ c c' t, c ≠ c' ∧ f.Edge s c t ∧ f.Edge s c' t := by
          rcases h with ⟨t, ht⟩ | ⟨-, hnot⟩
          · exact ⟨0, 1, t, by decide, ht 0, ht 1⟩
          · by_contra hno
            push Not at hno
            refine hnot ⟨hcomplete, fun c c' t hct hct' => ?_⟩
            by_contra hne
            exact hno c c' t hne hct hct'
        obtain ⟨g, hg, hto, hgc⟩ := hct
        obtain ⟨g', hg', hto', hgc'⟩ := hct'
        rw [EdgeSet.group_eq hg' hg (hto'.trans hto.symm)] at hgc'
        exact ⟨g, mem_edgeSetGroups.mpr ⟨hg, c, hgc⟩,
          g.one_lt_length_labels_iff.mpr ⟨c, c', hne, hgc, hgc'⟩⟩
      obtain ⟨mode, hmode⟩ := Option.isSome_iff_exists.mp hmode
      rw [hmode]
      exact makeDominant_isSome hf hdfa hcomplete (h.imp_right And.left) hmode
    · rename_i hc
      obtain ⟨c, t, ht⟩ : ∃ c t, f.Edge s c t := by
        by_contra hno
        push Not at hno
        exact hempty ((edgeSetEmpty_eq_true_iff _).mpr hno)
      obtain ⟨groups, hgroups⟩ := Option.isSome_iff_exists.mp
        (makeGroups_isSome ht (some_ne_none (t % 2 ^ 24)).symm)
      obtain ⟨htidy, hlabels⟩ := makeGroups_spec (hdfa.functional s) hgroups
      obtain ⟨bm, hbm, hcov⟩ := findCoverage_spec htidy
      rw [hgroups, bind_some, hbm, bind_some, makeIncomplete]
      have hhole : ¬ 256 - bmCount bm = 0 := by
        intro h0
        have hle := bmCount_le bm
        have hall := (bmCount_eq_iff bm).mp (by omega)
        refine hc (fsmIscomplete_eq_true_iff.mpr fun c => ?_)
        obtain ⟨b, hb⟩ := (hcov c).mp (hall c)
        obtain ⟨⟨t, ht, -⟩, -⟩ := (hlabels c b).mp hb
        exact ⟨t, ht⟩
      dsimp only
      rw [if_neg hhole]
      split <;> rfl

/-- One destination for all symbols is written as such, in full width. -/
theorem makeState_same (hf : f.Wf) (hdfa : f.IsDfa) (ht : ∀ c, f.Edge s c t) :
    makeState f s = some (.irSame t) := by
  have hcomplete : ∀ c, ∃ t, f.Edge s c t := fun c => ⟨t, ht c⟩
  obtain ⟨st, hst⟩ := Option.isSome_iff_exists.mp (makeState_isSome hf hdfa (.inl ⟨t, ht⟩))
  have hempty : ¬ edgeSetEmpty (f.state s).edges = true := fun hempty =>
    (edgeSetEmpty_eq_true_iff _).mp hempty 0 t (ht 0)
  unfold makeState at hst ⊢
  rw [if_neg hempty, if_pos (fsmIscomplete_eq_true_iff.mpr hcomplete)] at hst ⊢
  obtain ⟨mode, hmode, hdom⟩ := Option.bind_eq_some_iff.mp hst
  obtain ⟨g, hg, hto, hlen, hmax⟩ := fsmFindmode_eq_some hmode
  -- the group of `t` has all 256 labels, so the mode has as many
  obtain ⟨g₀, hg₀, hto₀, hc₀⟩ := ht 0
  have hall : ∀ c, g₀.has c = true := by
    intro c
    obtain ⟨g', hg', hto', hc'⟩ := ht c
    rwa [EdgeSet.group_eq hg' hg₀ (hto'.trans hto₀.symm)] at hc'
  have hfreq : mode.2 = 256 := by
    have hge := hmax g₀ (mem_edgeSetGroups.mpr ⟨hg₀, 0, hc₀⟩)
    rw [g₀.length_labels_eq_iff.mpr hall] at hge
    have hle := g.length_labels_le
    omega
  obtain ⟨hgmem, c, hc⟩ := mem_edgeSetGroups.mp hg
  have hmt : mode.1 = t := hdfa.functional s c mode.1 t ⟨g, hgmem, hto, hc⟩ (ht c)
  rw [hmode, bind_some, makeDominant, hmt, if_pos (hf.edge_lt (ht 0)), if_pos hfreq]

/-- Where every symbol leads to a state of its own, no mode is found. -/
theorem makeState_eq_none_of_allDistinct (h : AllDistinct f s) : makeState f s = none := by
  obtain ⟨hcomplete, hdist⟩ := h
  have hnone : fsmFindmode (f.state s).edges = none := by
    rw [← not_isSome_iff_eq_none, fsmFindmode_isSome_iff]
    intro ⟨g, hg, hlt⟩
    obtain ⟨c, c', hne, hc, hc'⟩ := g.one_lt_length_labels_iff.mp hlt
    have hgmem := (mem_edgeSetGroups.mp hg).1
    exact hne (hdist c c' g.toState ⟨g, hgmem, rfl, hc⟩ ⟨g, hgmem, rfl, hc'⟩)
  have hnotempty : ¬ edgeSetEmpty (f.state s).edges = true := by
    intro hempty
    obtain ⟨t, ht⟩ := hcomplete 0
    exact (edgeSetEmpty_eq_true_iff _).mp hempty 0 t ht
  rw [makeState, if_neg hnotempty, if_pos (fsmIscomplete_eq_true_iff.mpr hcomplete), hnone]
  rfl

/-- The strategy of a state is faithful exactly if the state is supported. -/
theorem makeState_faithful_iff (hf : f.Wf) (hdfa : f.IsDfa) :
    (∃ st, makeState f s = some st ∧ st.WellFormed ∧ ∀ c, st.decode c = f.next s c) ↔
      IrSupported f s := by
  constructor
  · intro ⟨st, hst, _, hdec⟩
    rcases (makeState_decode hdfa hst).2 with ⟨t, -, ht⟩ | htrunc
    · exact .inl ⟨t, ht⟩
    · by_cases hsame : ∃ t, ∀ c, f.Edge s c t
      · exact .inl hsame
      · refine .inr ⟨?_, ?_⟩
        -- destinations are read in 24 bits
        · intro c t ht
          have heq := (hdec c).symm.trans (htrunc c)
          rw [hdfa.next_eq_some_iff.mpr ht] at heq
          rw [Option.some.inj heq]
          exact Nat.mod_lt _ (by norm_num)
        · intro hall
          rw [makeState_eq_none_of_allDistinct hall] at hst
          cases hst
  · rintro (⟨t, ht⟩ | ⟨hwide, hdist⟩)
    · have hst := makeState_same hf hdfa ht
      exact ⟨_, hst, (makeState_decode hdfa hst).1, fun c =>
        (hdfa.next_eq_some_iff.mpr (ht c)).symm⟩
    · obtain ⟨st, hst⟩ := Option.isSome_iff_exists.mp
        (makeState_isSome hf hdfa (.inr ⟨hwide, hdist⟩))
      obtain ⟨hwf, hdec⟩ := makeState_decode hdfa hst
      refine ⟨st, hst, hwf, fun c => ?_⟩
      rcases hdec with ⟨t, rfl, ht⟩ | htrunc
      · exact (hdfa.next_eq_some_iff.mpr (ht c)).symm
      · rw [htrunc c]
        rcases hnext : f.next s c with _ | t
        · rfl
        · rw [map_some, Nat.mod_eq_of_lt (hwide c t (hdfa.next_eq_some_iff.mp hnext))]

end Supported

/-- The loop of `make_ir`, state by state. -/
theorem mapM_makeIrState_eq_some_iff {f : Fsm} {states : List IrState} :
    (range f.statecount).mapM (makeIrState f) = some states ↔
      states.length = f.statecount ∧
        ∀ s < f.statecount, ∃ st, states[s]? = some st ∧ makeIrState f s = some st := by
  rw [mapM_eq_some_iff, List.forall₂_iff_get]
  have hrange : (range f.statecount).length = f.statecount := length_range
  constructor
  · intro ⟨hlen, h⟩
    refine ⟨hlen.symm.trans hrange, fun s hs => ?_⟩
    have hs' : s < states.length := (hrange.symm.trans hlen) ▸ hs
    have hget := h s (hrange.symm ▸ hs) hs'
    simp only [get_eq_getElem, getElem_range] at hget
    exact ⟨states[s], getElem?_eq_getElem hs', hget⟩
  · intro ⟨hlen, h⟩
    refine ⟨hrange.trans hlen.symm, fun s hs hs' => ?_⟩
    obtain ⟨st, hst, hmake⟩ := h s (hrange ▸ hs)
    rw [getElem?_eq_getElem hs'] at hst
    simp only [get_eq_getElem, getElem_range]
    rw [hmake, ← hst]

/-- **`make_ir` succeeds and is faithful** exactly for the DFAs all of whose states are
supported, and flagged if they have eager outputs. -/
theorem makeIr_faithful_iff (f : Fsm) (hf : f.Wf) (hdfa : f.IsDfa)
    (hstart : f.start.isSome = true) :
    (∃ ir, makeIr f = .ok ir ∧ ir.Faithful f) ↔
      ∀ s < f.statecount, IrSupported f s ∧ f.EagerFlagged s := by
  obtain ⟨s₀, hs₀⟩ := Option.isSome_iff_exists.mp hstart
  have hmake : ∀ ir, makeIr f = .ok ir ↔ ir.start = s₀ ∧
      (range f.statecount).mapM (makeIrState f) = some ir.states := by
    intro ir
    simp only [makeIr, fsmGetstart, hs₀, Fsm.isDfa_iff_fsmAll.mp hdfa, if_true]
    rcases (range f.statecount).mapM (makeIrState f) with _ | states
    · simp
    · obtain ⟨start, states'⟩ := ir
      simp [eq_comm]
  simp only [hmake, mapM_makeIrState_eq_some_iff]
  constructor
  · intro ⟨ir, ⟨_, _, hstates⟩, hfaithful⟩ s hs
    obtain ⟨st, hst, hirst⟩ := hstates s hs
    obtain ⟨st', hst', -, hwf, hdec⟩ := hfaithful.state s hs
    cases hst.symm.trans hst'
    unfold makeIrState at hirst
    split at hirst
    · rename_i hflag
      obtain ⟨strategy, hstrategy, rfl⟩ := Option.map_eq_some_iff.mp hirst
      exact ⟨(makeState_faithful_iff hf hdfa).mp ⟨strategy, hstrategy, hwf, hdec⟩, hflag⟩
    · cases hirst
  · intro h
    -- the states one by one, collected into a list
    choose! strategy hstrategy using fun s hs => (makeState_faithful_iff hf hdfa).mpr (h s hs).1
    let make : ℕ → IrState := fun s =>
      { isend := fsmIsend f s
        endids := if fsmIsend f s then f.endidInfo.get s else []
        eagerOutputs := (f.eagerOutputInfo.get s).insertionSort (· ≤ ·)
        strategy := strategy s }
    have hget : ∀ s < f.statecount,
        ((range f.statecount).map make)[s]? = some (make s) := by
      intro s hs
      rw [getElem?_map, getElem?_range hs, map_some]
    refine ⟨⟨s₀, (range f.statecount).map make⟩, ⟨rfl, by simp, ?_⟩, hs₀, by simp, ?_⟩
    · intro s hs
      refine ⟨make s, hget s hs, ?_⟩
      rw [makeIrState, if_pos (h s hs).2, (hstrategy s hs).1, map_some]
    · intro s hs
      exact ⟨make s, hget s hs, rfl, (hstrategy s hs).2⟩

/-- One edge, on `a`, from the start state to an end state. -/
def oneEdgeFsm : Fsm :=
  fsmSetend (fsmAddedgeLiteral (fsmSetstart (fsmAddstateBulk fsmNew 2) 0) 0 1 97) 1 true

/-- One edge is enough for a faithful IR. -/
theorem makeIr_faithful_iff_oneEdge :
    ∃ ir, makeIr oneEdgeFsm = .ok ir ∧ ir.Faithful oneEdgeFsm := by
  have hwf : oneEdgeFsm.Wf := Fsm.wf_of_wfCheck (by decide +kernel)
  refine (makeIr_faithful_iff oneEdgeFsm hwf (by decide +kernel) rfl).mpr fun s hs => ?_
  have hcount : oneEdgeFsm.statecount = 2 := by decide +kernel
  refine ⟨.inr ⟨fun c t ht => ?_, fun h => ?_⟩, .inl (by decide +revert +kernel)⟩
  · have hlt := hwf.edge_lt ht
    omega
  · -- no state has an edge on `b`
    obtain ⟨t, ht⟩ := h.1 98
    have hno : ∀ s < 2, ∀ t < 2, ¬ oneEdgeFsm.Edge s 98 t := by decide +kernel
    exact hno s (hcount ▸ hs) t (hcount ▸ hwf.edge_lt ht) ht

/-- A start state with an edge on each symbol, to 256 different states. -/
def fanOutFsm : Fsm :=
  (finRange 256).foldl (fun f (c : Byte) => fsmAddedgeLiteral f 0 c.val c)
    (fsmSetstart (fsmAddstateBulk fsmNew 256) 0)

private theorem fsmSetstart_fsmAddstateBulk_fsmNew (n : ℕ) :
    (∀ s, (fsmSetstart (fsmAddstateBulk fsmNew n) 0).state s = .fresh) ∧
      (fsmSetstart (fsmAddstateBulk fsmNew n) 0).statecount = n ∧
      (∀ s, (fsmSetstart (fsmAddstateBulk fsmNew n) 0).endidInfo.get s = []) ∧
      ∀ s, (fsmSetstart (fsmAddstateBulk fsmNew n) 0).eagerOutputInfo.get s = [] := by
  obtain ⟨alloc, hbulk⟩ := fsmAddstateBulk_eq fsmNew n
  refine ⟨fun s => ?_, ?_, fun s => ?_, fun s => ?_⟩
  · show (fsmAddstateBulk fsmNew n).state s = .fresh
    rw [state_fsmAddstateBulk, Fsm.state_of_le (Nat.zero_le s)]
  · exact (statecount_fsmAddstateBulk fsmNew n).trans (zero_add n)
  · rw [hbulk]
    exact IdTable.get_empty s
  · rw [hbulk]
    exact IdTable.get_empty s

/-- For 256 different destinations `fsm_findmode` finds no mode, and its assertion fails. -/
theorem makeIr_fanOut_assertion : fanOutFsm.Wf ∧ fanOutFsm.IsDfa ∧
    fanOutFsm.start.isSome = true ∧ makeIr fanOutFsm = .error .assertion := by
  obtain ⟨hbase, hcount₀, hids₀, heager₀⟩ := fsmSetstart_fsmAddstateBulk_fsmNew 256
  have hstep : ∀ (f : Fsm) (c : Byte), (fsmAddedgeLiteral f 0 c.val c).statecount = f.statecount :=
    fun f _ => f.statecount_modifyState 0 _
  have hcount : fanOutFsm.statecount = 256 :=
    (foldl_eq_of_step Fsm.statecount fun f c _ => hstep f c).trans hcount₀
  have hstart : fanOutFsm.start = some 0 := foldl_eq_of_step Fsm.start fun _ _ _ => rfl
  have hids : fanOutFsm.endidInfo = _ := foldl_eq_of_step Fsm.endidInfo fun _ _ _ => rfl
  have heager : fanOutFsm.eagerOutputInfo = _ :=
    foldl_eq_of_step Fsm.eagerOutputInfo fun _ _ _ => rfl
  have hedge' : ∀ s c t, fanOutFsm.Edge s c t ↔ s = 0 ∧ t = c.val := by
    intro s c t
    rw [fanOutFsm, foldl_or_iff_of_inv (fun f : Fsm => 0 < f.statecount)
      (fun f : Fsm => f.Edge s c t) (fun f hpos d _ => ⟨hpos.trans_eq (hstep f d).symm,
        edge_fsmAddedgeLiteral hpos _ d⟩) (by rw [hcount₀]; norm_num), Fsm.Edge, hbase]
    constructor
    · rintro (h | ⟨_, -, hs, ht, rfl⟩)
      · exact absurd h (hasEdge_null c t)
      · exact ⟨hs, ht⟩
    · exact fun h => .inr ⟨c, mem_finRange c, h.1, h.2, rfl⟩
  have heps' : ∀ s t, ¬ fanOutFsm.Eps s t := by
    intro s t h
    have heps : fanOutFsm.Eps s t = _ := foldl_eq_of_step (Fsm.Eps · s t) fun _ _ _ =>
      propext (Fsm.eps_modifyState fun _ => rfl)
    rw [heps, Fsm.Eps, hbase] at h
    exact notMem_null t h
  have hdfa : fanOutFsm.IsDfa := by
    refine Fsm.isDfa_iff.mpr ⟨fun _ => by rw [hstart]; rfl, heps', ?_⟩
    intro s c t t' ht ht'
    exact ((hedge' s c t).mp ht).2.trans ((hedge' s c t').mp ht').2.symm
  refine ⟨⟨?_, ?_, ?_, ?_, ?_⟩, hdfa, by rw [hstart]; rfl, ?_⟩
  · intro s hs
    rw [hstart] at hs
    rw [hcount, ← Option.some.inj hs]
    norm_num
  · intro s c t ht
    rw [hcount, ((hedge' s c t).mp ht).2]
    exact c.isLt
  · intro s t ht
    exact absurd ht (heps' s t)
  · intro s _
    rw [hids, hids₀]
  · intro s _
    rw [heager, heager₀]
  · -- the loop fails at the start state
    have hnone : makeState fanOutFsm 0 = none := by
      apply makeState_eq_none_of_allDistinct
      refine ⟨fun c => ⟨c.val, (hedge' 0 c _).mpr ⟨rfl, rfl⟩⟩, fun c c' t ht ht' => ?_⟩
      exact Fin.ext (((hedge' 0 c t).mp ht).2.symm.trans ((hedge' 0 c' t).mp ht').2)
    have hmap : (range fanOutFsm.statecount).mapM (makeIrState fanOutFsm) = none := by
      rw [eq_none_iff_forall_ne_some]
      intro states hstates
      obtain ⟨st, -, hst⟩ :=
        (mapM_makeIrState_eq_some_iff.mp hstates).2 0 (by rw [hcount]; norm_num)
      rw [makeIrState, hnone, Option.map_none, ite_self] at hst
      cases hst
    simp only [makeIr, fsmGetstart, hstart, Fsm.isDfa_iff_fsmAll.mp hdfa, if_true, hmap]

end Libfsm
