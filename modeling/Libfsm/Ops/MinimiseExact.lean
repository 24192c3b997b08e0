import Libfsm.Ops.Determinise
import Libfsm.Ops.MinimiseLoop
import Libfsm.Ops.MinimiseMetadata

/-!
# What Minimisation Keeps

The classes that `build_minimised_mapping` ends with are stable: states of one class have the same
end mark and the same collected metadata, and move to the same classes.  The minimised DFA is the
quotient, so that it runs as the trimmed DFA does.

- `Distances`: the distances that the minimiser is given
- `buildMinimisedMapping_spec`: the mapping
- `MinimisedBy`, `fsmMinimise_spec`: the minimised DFA
- `fsmMinimise_language_endIds`: language and end IDs are kept, whatever was on the stack
-/

namespace Libfsm

open Lib
open List hiding nil cons

/-! ## §1 Distances -/

/-- The distance of each state to an end. -/
structure Distances (f : Fsm) (sed : List ℕ) : Prop where
  length : sed.length = f.statecount
  least : ∀ s < f.statecount, IsLeast {n | f.EndPath n s} (sed.getD s 0)

namespace Distances

variable {f : Fsm} {sed : List ℕ}

theorem eq_zero_iff (h : Distances f sed) {s : ℕ} (hs : s < f.statecount) :
    sed.getD s 0 = 0 ↔ f.IsEnd s := by
  have hpath : f.EndPath 0 s ↔ f.IsEnd s := by
    constructor
    · intro hend
      cases hend with
      | done hend => exact hend
    · exact .done
  rw [← hpath]
  constructor
  · intro hzero
    exact hzero ▸ (h.least s hs).1
  · exact fun hend => Nat.le_zero.mp ((h.least s hs).2 hend)

/-- The next state on a shortest path is one step closer. -/
theorem pred_mem (h : Distances f sed) (hwf : f.Wf) {d : ℕ} (hd : d + 1 ∈ sed) : d ∈ sed := by
  obtain ⟨s, hs, hsd⟩ := getElem_of_mem hd
  have hslt : s < f.statecount := h.length ▸ hs
  have hleast := h.least s hslt
  rw [getD_eq_getElem _ _ hs, hsd] at hleast
  obtain ⟨hpath, hmin⟩ := hleast
  have hstep : ∃ t, f.Step s t ∧ f.EndPath d t := by
    cases hpath with
    | step hst hpath => exact ⟨_, hst, hpath⟩
  obtain ⟨t, hst, hpath⟩ := hstep
  have htlt : t < f.statecount := by
    obtain ⟨o, ho⟩ := hst
    exact hwf.step_lt ho
  have hdist : IsLeast {n | f.EndPath n t} d :=
    ⟨hpath, fun k hk => Nat.le_of_succ_le_succ (hmin (Fsm.EndPath.step hst hk))⟩
  have heq : sed.getD t 0 = d := (h.least t htlt).unique hdist
  rw [← heq, getD_eq_getElem _ _ (h.length.symm ▸ htlt)]
  exact getElem_mem _

/-- Every distance up to the largest one occurs. -/
theorem mem_of_le_max (h : Distances f sed) (hwf : f.Wf) (hpos : 0 < f.statecount) :
    ∀ d ≤ sed.foldl max 0, d ∈ sed := by
  have hne : sed ≠ [] := ne_nil_of_length_pos (h.length.symm ▸ hpos)
  have hmax : sed.foldl max 0 ∈ sed := by
    rcases foldl_max_mapping_mem id sed 0 with hzero | ⟨d, hd, hmem⟩
    · have hzero : sed.foldl max 0 = 0 := hzero
      obtain ⟨d, hd⟩ := exists_mem_of_ne_nil sed hne
      have hle : d ≤ sed.foldl max 0 := (le_foldl_max id sed 0).2 d hd
      rw [hzero] at hle ⊢
      exact Nat.le_zero.mp hle ▸ hd
    · exact hmem.symm ▸ hd
  have hdown : ∀ k d, d + k ∈ sed → d ∈ sed := by
    intro k
    induction k with
    | zero => exact fun d hd => hd
    | succ k ih =>
      intro d hd
      exact ih d (h.pred_mem hwf hd)
  intro d hd
  apply hdown (sed.foldl max 0 - d)
  rwa [Nat.add_sub_cancel' hd]

/-- The metadata of an end state is always collected: all states of its EC are end states. -/
theorem collected_of_isEnd (h : Distances f sed) {s : ℕ} (hs : s < f.statecount)
    (hend : f.IsEnd s) : collected f (fun s => sed.getD s 0) s = collectEndMetadata f s := by
  rw [collected, if_pos]
  intro t ht htd _
  have hzero : sed.getD t 0 = 0 := htd.trans ((h.eq_zero_iff hs).mpr hend)
  have htend : f.IsEnd t := (h.eq_zero_iff ht).mp hzero
  rw [hasEndMetadata, Bool.or_eq_true]
  exact Or.inl htend

end Distances

/-- The distances that `fsm_trim` hands to the minimiser. -/
theorem distances_fsmTrim {f : Fsm} (hf : f.Wf) (hun : f.Unmarked) :
    Distances (fsmTrim f .startAndEndReachable).fsm
      ((fsmTrim f .startAndEndReachable).sed.map fun sed => sed.getD 0) := by
  refine ⟨?_, fun t ht => ?_⟩
  · rw [length_map]
    unfold fsmTrim
    split
    · rename_i hzero
      exact hzero.symm
    · rw [length_map, statecount_setVisited, statecount_setVisited, statecount_fsmCompactStates,
        keptBelow, countP_eq_length_filter, statecount_setVisited]
  · obtain ⟨d, hd, hleast⟩ := fsmTrim_sed hf hun ht
    rw [getD_eq_getElem?_getD, getElem?_map, hd]
    exact hleast

/-- **The first ECs are ranked by size**: permutation vectors sort stably and are inverted by
permutation vectors, so that there is one EC for each distance, the larger ones come first, and
`done_ec_offset` is the first one with less than two states. -/
theorem initialEcs_by_size {f : Fsm} {sed : List ℕ} (hdist : Distances f sed) (hwf : f.Wf)
    (hpos : 0 < f.statecount) :
    (∀ (maxValue : ℕ) (xs : List ℕ), (∀ v ∈ xs, v ≤ maxValue) →
      (permutationVector maxValue xs).Perm (range xs.length) ∧
      (permutationVector maxValue xs).Pairwise (PvBefore xs) ∧
      ∀ maxRank, (∀ v ∈ permutationVector maxValue xs, v ≤ maxRank) → ∀ q i : ℕ,
        (permutationVector maxRank (permutationVector maxValue xs))[q]? = some i ↔
          (permutationVector maxValue xs)[i]? = some q) ∧
      InitialEcs f.statecount (fun s => sed.getD s 0) (populateInitialEcs f.statecount sed) ∧
      (populateInitialEcs f.statecount sed).classes.Pairwise (fun c c' => c'.length ≤ c.length) ∧
      (populateInitialEcs f.statecount sed).doneEcOffset =
        (populateInitialEcs f.statecount sed).classes.findIdx (·.length < 2) := by
  refine ⟨fun maxValue xs h => ⟨permutationVector_perm h, permutationVector_sorted h, ?_⟩,
    populateInitialEcs_ranked hdist.length (hdist.mem_of_le_max hwf hpos)⟩
  exact fun maxRank hmax q i => permutationVector_ranks h hmax

/-- One end state, three states one step away from it, and two states two steps away. -/
def threeLayersFsm : Fsm :=
  let f := fsmSetend (fsmAddstateBulk fsmNew 6) 0 true
  let f := fsmAddedgeLiteral (fsmAddedgeLiteral (fsmAddedgeLiteral f 1 0 97) 2 0 97) 3 0 97
  let f := fsmAddedgeLiteral (fsmAddedgeLiteral f 4 1 97) 4 2 98
  fsmSetstart (fsmAddedgeLiteral (fsmAddedgeLiteral f 5 3 97) 5 4 98) 5

/-- The ranking puts the three classes in another order than their distances. -/
theorem initialEcs_by_size_threeLayers :
    (populateInitialEcs 6 [0, 1, 1, 1, 2, 2]).classes.map List.length = [3, 2, 1] ∧
      (populateInitialEcs 6 [0, 1, 1, 1, 2, 2]).doneEcOffset = 2 ∧
      InitialEcs 6 (fun s => [0, 1, 1, 1, 2, 2].getD s 0) (populateInitialEcs 6 [0, 1, 1, 1, 2, 2])
      := by
  have hwf : threeLayersFsm.Wf := Fsm.wf_of_wfCheck (by decide +kernel)
  have hun : threeLayersFsm.Unmarked := by decide +kernel
  have hsed : (fsmTrim threeLayersFsm .startAndEndReachable).sed.map (fun sed => sed.getD 0) =
      [0, 1, 1, 1, 2, 2] := by
    decide +kernel
  have hcount : (fsmTrim threeLayersFsm .startAndEndReachable).fsm.statecount = 6 := by
    decide +kernel
  have h := (initialEcs_by_size (distances_fsmTrim hwf hun) (fsmTrim_wf hwf _) (by omega)).2
  rw [hsed, hcount] at h
  exact ⟨by decide +kernel, by decide +kernel, h.1⟩

/-! ## §2 The Mapping -/

/-- What is written for the states of one EC after the other. -/
theorem foldl_ecs_eq {env : MinEnv} {n s i : ℕ} (h : EcLinked n env) (hs : env.stateEcs s = some i)
    (l : List ℕ) (init : ℕ → ℕ) : l.foldl (fun mapping i => (env.ec i).states.foldl
      (fun mapping cur => Function.update mapping cur i) mapping) init s =
        if i ∈ l then i else init s := by
  obtain ⟨c, hc, hsc⟩ := h.stateEcs_eq_some_iff.mp hs
  -- the state is in one EC only
  have hmem : ∀ j, s ∈ (env.ec j).states ↔ i = j := by
    intro j
    constructor
    · intro hsj
      rcases lt_or_ge j env.ecs.length with hj | hj
      · exact h.divides.index_eq hc (MinEnv.getElem?_classes hj) hsc hsj
      · rw [MinEnv.ec, getD_eq_default _ _ hj] at hsj
        cases hsj
    · intro hij
      rw [← hij, MinEnv.ec_states hc]
      exact hsc
  rw [foldl_eq_ite (fun mapping : ℕ → ℕ => mapping s) (p := (i = ·)) (v := i) fun mapping j => ?_]
  · simp
  · rw [foldl_update_eq fun _ => j]
    by_cases hij : i = j <;> simp [hmem, hij]

/-- What the mapping does. -/
structure MinimisedMapping (f : Fsm) (sed : ℕ → ℕ) (mapping : ℕ → ℕ) (count : ℕ) : Prop where
  lt : ∀ s < f.statecount, mapping s < count
  onto : ∀ i < count, ∃ s < f.statecount, mapping s = i
  stable : Stable f.next (fun s => (fsmIsend f s, collected f sed s)) {s | s < f.statecount} mapping

/-- **The mapping** exists, whatever was on the stack. -/
theorem buildMinimisedMapping_spec (stack : ℕ → Symbols) {f : Fsm} {sed : List ℕ} (hwf : f.Wf)
    (hdfa : f.IsDfa) (hdist : Distances f sed) (hpos : 0 < f.statecount) :
    ∃ r, buildMinimisedMapping stack f (collectLabels f) sed = some r ∧
      MinimisedMapping f (fun s => sed.getD s 0) r.1 r.2 := by
  have hinit := populateInitialEcs_spec hdist.length (hdist.mem_of_le_max hwf hpos)
  obtain ⟨hinv, htogether⟩ := splitEcsByEndMetadata_spec hinit (collectLabels f).length
  obtain ⟨env', hloop, hrefined, hagree⟩ := minimiseLoop_spec stack hdfa hwf rfl
    (f.statecount + 1) hinv (by omega)
  have hlinked := hrefined.inv.linked
  have hlen : 0 < env'.ecs.length := by
    obtain ⟨c, hc, -⟩ := hlinked.divides.exists_mem_iff.mpr hpos
    rw [← MinEnv.length_classes]
    exact length_pos_of_mem hc
  have hne : (env'.ec 0).states ≠ [] := hlinked.divides.nonempty _ (MinEnv.ec_mem hlen)
  set mapping : ℕ → ℕ := (range' 0 (env'.ecs.length - 0)).foldl (fun mapping i =>
    (env'.ec i).states.foldl (fun mapping cur => Function.update mapping cur (i - 0)) mapping)
    (fun _ => 0) with hmapping
  have hbuild : buildMinimisedMapping stack f (collectLabels f) sed =
      some (mapping, env'.ecs.length) := by
    rw [buildMinimisedMapping, hloop, Option.map_some, if_neg hne]
    rfl
  -- the last loop numbers each state by its EC
  have hlink : ∀ s i, env'.stateEcs s = some i → mapping s = i ∧ i < env'.ecs.length := by
    intro s i hs
    obtain ⟨c, hc, -⟩ := hlinked.stateEcs_eq_some_iff.mp hs
    have hi := MinEnv.lt_of_getElem?_classes hc
    refine ⟨?_, hi⟩
    rw [hmapping]
    simp only [Nat.sub_zero]
    rw [foldl_ecs_eq hlinked hs, if_pos]
    simpa using hi
  have hsame : ∀ s < f.statecount, ∀ t < f.statecount,
      mapping s = mapping t ↔ Together env'.classes s t := by
    intro s hs t ht
    obtain ⟨i, hi⟩ := hlinked.exists_stateEcs hs
    obtain ⟨j, hj⟩ := hlinked.exists_stateEcs ht
    rw [(hlink s i hi).1, (hlink t j hj).1, ← hlinked.stateEcs_eq_iff hs, hi, hj, Option.some.injEq]
  refine ⟨(mapping, env'.ecs.length), hbuild, fun s hs => ?_, fun i hi => ?_, ⟨?_, ?_⟩⟩
  · obtain ⟨i, hi⟩ := hlinked.exists_stateEcs hs
    exact (hlink s i hi).1.trans_lt (hlink s i hi).2
  · obtain ⟨s, hs⟩ := exists_mem_of_ne_nil _ (hlinked.divides.nonempty _ (MinEnv.ec_mem hi))
    refine ⟨s, hlinked.divides.lt (MinEnv.ec_mem hi) hs, (hlink s i ?_).1⟩
    exact hlinked.stateEcs_eq_some_iff.mpr ⟨_, MinEnv.getElem?_classes hi, hs⟩
  · intro s hs t ht hst
    -- states of one EC were in one EC at first, by distance and metadata
    have hfirst := hrefined.together ((hsame s hs t ht).mp hst)
    obtain ⟨hd, hmd⟩ := (htogether s hs t ht).mp hfirst
    have hend : fsmIsend f s = fsmIsend f t := by
      apply Bool.eq_iff_iff.mpr
      exact (hdist.eq_zero_iff hs).symm.trans ((by rw [hd] : _ ↔ _).trans (hdist.eq_zero_iff ht))
    exact Prod.ext hend hmd
  · intro s hs t ht hst c
    obtain ⟨d, hd, hsd, htd⟩ := (hsame s hs t ht).mp hst
    obtain ⟨i, hi⟩ := mem_iff_getElem?.mp hd
    have hstates := MinEnv.ec_states hi
    -- the loop has stopped, so no label tells the states of an EC apart
    have hafter := hagree i (MinEnv.lt_of_getElem?_classes hi) c s (hstates.symm ▸ hsd) t
      (hstates.symm ▸ htd)
    have hmap : ∀ r, (f.next r c).map mapping = ecAfter f env'.stateEcs r c := by
      intro r
      rw [ecAfter]
      cases hnext : f.next r c with
      | none => rfl
      | some u =>
        obtain ⟨j, hj⟩ := hlinked.exists_stateEcs (hwf.edge_lt (Fsm.edge_of_next hnext))
        rw [Option.map_some, Option.bind_some, hj, (hlink u j hj).1]
    rw [hmap, hmap, hafter]

/-! ## §3 The Minimised DFA -/

/-- `q` is `g` with the states of each class made one. -/
structure MinimisedBy (g : Fsm) (sed : ℕ → ℕ) (q : Fsm) (mapping : ℕ → ℕ) :
    Prop extends MinimisedMapping g sed mapping q.statecount where
  isDfa : q.IsDfa
  start : q.start = g.start.map mapping
  runFrom : ∀ s < g.statecount, ∀ w, q.runFrom (mapping s) w = (g.runFrom s w).map mapping
  isEnd : ∀ s < g.statecount, q.IsEnd (mapping s) ↔ g.IsEnd s
  endids : ∀ j id, id ∈ q.endidInfo.get j ↔
    ∃ s < g.statecount, mapping s = j ∧ id ∈ g.endidInfo.get s

section Minimise

variable {g : Fsm} {sed : List ℕ} (hwf : g.Wf)
include hwf

theorem lt_of_mem_endids {s id : ℕ} (h : id ∈ g.endidInfo.get s) : s < g.statecount := by
  by_contra hge
  rw [hwf.endids_below s (Nat.le_of_not_lt hge)] at h
  cases h

theorem MinimisedMapping.consolidate {sed : ℕ → ℕ} {mapping : ℕ → ℕ}
    {count : ℕ} (h : MinimisedMapping g sed mapping count) (hdfa : g.IsDfa)
    (hpos : 0 < g.statecount) :
    MinimisedBy g sed (fsmVacuum (fsmConsolidate g mapping g.statecount)) mapping := by
  have hcons := fsmConsolidate_consolidated g mapping g.statecount
  set q := fsmConsolidate g mapping g.statecount with hq
  have hresp : Consolidated.Respects g mapping := by
    refine ⟨fun s hs t ht hst => ?_, fun s hs t ht hst c => h.stable.step_eq s hs t ht hst c⟩
    exact Bool.eq_iff_iff.mp (congrArg Prod.fst (h.stable.out_eq s hs t ht hst))
  have hcount : q.statecount = count := by
    obtain ⟨i, hi, hlast⟩ := hcons.last hpos
    apply le_antisymm
    · rw [hlast]
      exact h.lt i hi
    · -- the last class has a state, which has a number
      by_contra hlt
      obtain ⟨s, hs, hms⟩ := h.onto q.statecount (Nat.lt_of_not_le hlt)
      exact absurd (hcons.lt hs) (hms ▸ lt_irrefl _)
  have hmapping : MinimisedMapping g sed mapping (fsmVacuum q).statecount :=
    (hcount.symm ▸ h : MinimisedMapping g sed mapping q.statecount)
  refine ⟨hmapping, ?_, hcons.start, ?_, ?_, ?_⟩
  · exact hcons.isDfa hdfa hpos
  · exact fun s hs w => hcons.runFrom_eq hdfa hresp hwf hs w
  · exact fun s hs => hcons.isEnd_iff hresp hs
  · intro j id
    refine (hcons.endids j id).trans ⟨fun ⟨s, hs, hid⟩ => ?_, fun ⟨s, _, hs, hid⟩ => ⟨s, hs, hid⟩⟩
    exact ⟨s, lt_of_mem_endids hwf hid, hs, hid⟩

/-- With at most one state there is nothing to do. -/
theorem minimisedBy_self (sed : ℕ → ℕ) (hdfa : g.IsDfa)
    (hle : g.statecount ≤ 1) : MinimisedBy g sed g id := by
  have heq : ∀ s < g.statecount, ∀ t < g.statecount, s = t := by
    omega
  refine ⟨⟨fun s hs => hs, fun i hi => ⟨i, hi, rfl⟩, ⟨?_, ?_⟩⟩, hdfa, ?_, ?_,
    fun s _ => Iff.rfl, ?_⟩
  · intro s hs t ht _
    rw [heq s hs t ht]
  · intro s hs t ht _ c
    rw [heq s hs t ht]
  · exact Option.map_id'.symm
  · intro s _ w
    exact Option.map_id'.symm
  · intro j i
    exact ⟨fun hi => ⟨j, lt_of_mem_endids hwf hi, rfl, hi⟩, fun ⟨s, _, hs, hi⟩ => hs ▸ hi⟩

end Minimise

/-- A trimmed DFA without edges has at most one state. -/
theorem statecount_le_one_of_no_labels {f : Fsm} (hf : f.Wf) (hun : f.Unmarked) (hdfa : f.IsDfa)
    (hno : (collectLabels (fsmTrim f .startAndEndReachable).fsm).length = 0) :
    (fsmTrim f .startAndEndReachable).fsm.statecount ≤ 1 := by
  set g := (fsmTrim f .startAndEndReachable).fsm with hg
  have hren := fsmTrim_renumbered hf .startAndEndReachable
  have hgdfa : g.IsDfa := fsmTrim_isDfa hf hun _ hdfa
  have hstep : ∀ s t, ¬ g.Step s t := by
    intro s t hst
    rcases Fsm.step_iff.mp hst with heps | ⟨c, hedge⟩
    · exact hgdfa.not_eps s t heps
    · have hmem : c ∈ collectLabels g :=
        mem_labelsOf_labelSet.mpr ⟨s, mem_range.mpr hedge.source_lt, t, hedge⟩
      rw [length_eq_zero_iff.mp hno] at hmem
      cases hmem
  -- every state is reached from the start state, in no steps
  have hstart : ∀ t < g.statecount, g.start = some t := by
    intro t ht
    obtain ⟨s, hst⟩ := hren.onto ht
    have hkept := (isSome_trimMapping hf hun _ s).mp (Option.isSome_iff_exists.mpr ⟨t, hst⟩)
    obtain ⟨w, hw⟩ := hkept.reachable
    have hreach : g.Reachable t := ⟨w, (fsmTrim_active_iff hf hun _ hst).mpr hw⟩
    obtain ⟨s₀, hs₀, hpath⟩ := Fsm.reachable_iff.mp hreach
    rcases hpath.cases_tail with rfl | ⟨u, -, hut⟩
    · exact hs₀
    · exact absurd hut (hstep u t)
  by_contra hlt
  have h₀ := hstart 0 (by omega)
  rw [hstart 1 (by omega)] at h₀
  cases h₀

/-- **Minimisation** of a DFA ends, with the quotient of the trimmed DFA. -/
theorem fsmMinimise_spec (stack : ℕ → Symbols) {f : Fsm} (hf : f.Wf) (hun : f.Unmarked)
    (hdfa : f.IsDfa) : ∃ q mapping, fsmMinimise stack f = some q ∧
      MinimisedBy (fsmTrim f .startAndEndReachable).fsm
        (fun s => ((fsmTrim f .startAndEndReachable).sed.map fun sed => sed.getD 0).getD s 0)
        q mapping := by
  have hwf := fsmTrim_wf hf .startAndEndReachable
  have hgdfa := fsmTrim_isDfa hf hun .startAndEndReachable hdfa
  rw [fsmMinimise]
  dsimp only
  split
  · exact ⟨_, id, rfl, minimisedBy_self hwf _ hgdfa (by omega)⟩
  · rename_i hpos
    split
    · rename_i hno
      exact ⟨_, id, rfl, minimisedBy_self hwf _ hgdfa
        (statecount_le_one_of_no_labels hf hun hdfa hno)⟩
    · have hpos := pos_of_ne_zero hpos
      obtain ⟨r, hr, hmapping⟩ := buildMinimisedMapping_spec stack hwf hgdfa
        (distances_fsmTrim hf hun) hpos
      rw [hr]
      exact ⟨_, r.1, rfl, hmapping.consolidate hwf hgdfa hpos⟩

/-! ## §4 Language And End IDs -/

namespace MinimisedBy

variable {g q : Fsm} {sed : ℕ → ℕ} {mapping : ℕ → ℕ}
  (h : MinimisedBy g sed q mapping) (hwf : g.Wf) (hdfa : g.IsDfa)
include h hwf hdfa

/-- The states active in the quotient are the classes of those active before. -/
theorem active_iff {w : List Byte} {u : ℕ} : q.Active w u ↔ ∃ s, g.Active w s ∧ mapping s = u := by
  cases hstart : g.start with
  | none =>
    have hq : q.start = none := by rw [h.start, hstart]; rfl
    refine iff_of_false (Fsm.not_active_of_start_eq_none hq w u) ?_
    intro ⟨s, hs, _⟩
    exact Fsm.not_active_of_start_eq_none hstart w s hs
  | some s₀ =>
    have hq : q.start = some (mapping s₀) := by rw [h.start, hstart]; rfl
    rw [h.isDfa.active_iff hq, h.runFrom s₀ (hwf.start_lt hstart), Option.map_eq_some_iff]
    simp only [hdfa.active_iff hstart]

theorem language_eq : q.language = g.language := by
  ext w
  rw [Fsm.mem_language_iff, Fsm.mem_language_iff]
  constructor
  · intro ⟨u, hu, hend⟩
    obtain ⟨s, hs, rfl⟩ := (h.active_iff hwf hdfa).mp hu
    exact ⟨s, hs, (h.isEnd s (hwf.active_lt hs)).mp hend⟩
  · intro ⟨s, hs, hend⟩
    exact ⟨mapping s, (h.active_iff hwf hdfa).mpr ⟨s, hs, rfl⟩,
      (h.isEnd s (hwf.active_lt hs)).mpr hend⟩

/-- End states of one class have the same end IDs. -/
theorem endIdsAfter_eq {sed' : List ℕ} (hsed : sed = fun s => sed'.getD s 0)
    (hdist : Distances g sed') (w : List Byte) : q.endIdsAfter w = g.endIdsAfter w := by
  have hids : ∀ s, g.Active w s → g.IsEnd s → ∀ id,
      id ∈ q.endidInfo.get (mapping s) ↔ id ∈ g.endidInfo.get s := by
    intro s hs hend id
    have hslt := hwf.active_lt hs
    rw [h.endids]
    refine ⟨fun ⟨t, ht, hts, hid⟩ => ?_, fun hid => ⟨s, hslt, rfl, hid⟩⟩
    have hout := h.stable.out_eq t ht s hslt hts
    have htend : g.IsEnd t := (Bool.eq_iff_iff.mp (congrArg Prod.fst hout)).mpr hend
    have hmd : collected g sed t = collected g sed s := congrArg Prod.snd hout
    rw [hsed, hdist.collected_of_isEnd ht htend, hdist.collected_of_isEnd hslt hend] at hmd
    have hget : g.endidInfo.get t = g.endidInfo.get s := congrArg EndMetadata.endIds hmd
    exact hget ▸ hid
  ext id
  constructor
  · intro ⟨u, hu, hend, hid⟩
    obtain ⟨s, hs, rfl⟩ := (h.active_iff hwf hdfa).mp hu
    have hsend := (h.isEnd s (hwf.active_lt hs)).mp hend
    exact ⟨s, hs, hsend, (hids s hs hsend id).mp hid⟩
  · intro ⟨s, hs, hend, hid⟩
    exact ⟨mapping s, (h.active_iff hwf hdfa).mpr ⟨s, hs, rfl⟩,
      (h.isEnd s (hwf.active_lt hs)).mpr hend, (hids s hs hend id).mpr hid⟩

end MinimisedBy

/-- **Minimisation keeps the language and the end IDs** of a DFA, whatever was on the stack. -/
theorem fsmMinimise_language_endIds (stack : ℕ → Symbols) {f : Fsm} (hf : f.Wf) (hun : f.Unmarked)
    (hdfa : f.IsDfa) : ∃ q, fsmMinimise stack f = some q ∧ q.IsDfa ∧
      (∀ w, w ∈ q.language ↔ w ∈ f.language) ∧ ∀ w, q.endIdsAfter w = f.endIdsAfter w := by
  obtain ⟨q, mapping, hq, hmin⟩ := fsmMinimise_spec stack hf hun hdfa
  have hwf := fsmTrim_wf hf .startAndEndReachable
  have hgdfa := fsmTrim_isDfa hf hun .startAndEndReachable hdfa
  refine ⟨q, hq, hmin.isDfa, fun w => ?_, fun w => ?_⟩
  · rw [hmin.language_eq hwf hgdfa, fsmTrim_language hf hun]
  · rw [hmin.endIdsAfter_eq hwf hgdfa rfl (distances_fsmTrim hf hun), fsmTrim_endIdsAfter hf hun]

/-- Two ways to the same tail: `ac` and `bc`, each with states of its own, and the end ID 7. -/
def twoTailsFsm : Fsm :=
  let f := fsmAddedgeLiteral (fsmAddedgeLiteral (fsmAddstateBulk fsmNew 5) 0 1 97) 0 2 98
  let f := fsmAddedgeLiteral (fsmAddedgeLiteral f 1 3 99) 2 4 99
  let f := fsmSetend (fsmSetend f 3 true) 4 true
  fsmSetstart { f with endidInfo := endidSet (endidSet f.endidInfo 3 7) 4 7 } 0

theorem fsmMinimise_twoTails : ∃ q, fsmMinimise (fun _ => 0) twoTailsFsm = some q ∧ q.IsDfa ∧
    (∀ w, w ∈ q.language ↔ w ∈ twoTailsFsm.language) ∧
      ∀ w, q.endIdsAfter w = twoTailsFsm.endIdsAfter w :=
  fsmMinimise_language_endIds (fun _ => 0) (Fsm.wf_of_wfCheck (by decide +kernel))
    (by decide +kernel) (by decide +kernel)

end Libfsm
