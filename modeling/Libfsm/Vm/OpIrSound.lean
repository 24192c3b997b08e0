import Libfsm.Vm.OpIr
import Libfsm.Lib.FetchMachine

/-!
# The Opcodes Follow The IR

What the opcodes of `dfavm_compile_ir` do on a symbol, and that each pass keeps it.

- `react`: where opcodes lead on a symbol
- `react_initialTranslateTable`: the opcodes for a table lead where the table says
- `LinkedOps`: a list of opcodes that follows the IR.  It holds when the chains have been put in
  order, and each branch that is taken out keeps it
- `dfavmCompileIr_linked`: what the translation returns

The counts of incoming branches are exact at each moment, so an opcode without incoming branches
is reached from the opcode before it only.
-/

namespace Libfsm

open Lib
open List hiding nil cons next ranges Chain head

variable {d : ℕ} {known : ℕ → Prop}

/-! ## §1 Where Opcodes Lead -/

/-- Where opcodes lead on a symbol: to the end, or to the first opcode of a state. -/
inductive Arrival where
  | stop (e : VmEnd)
  | enter (d : ℕ)
  deriving DecidableEq, Repr

/-- Where opcodes lead on the symbol `c`, up to the first opcode of a state. -/
def react : List DfavmOpIr → Byte → Option Arrival
  | [], _ => none
  | op :: rest, c =>
    match op.label with
    | some d => some (.enter d)
    | none =>
      match op.instr with
      | .fetch _ _ => none
      | .stop e => if op.cmp.holds c op.cmpArg then some (.stop e) else react rest c
      | .branch d => if op.cmp.holds c op.cmpArg then some (.enter d) else react rest c

/-- Where a destination of a table leads. -/
def arrivalOf : Option ℕ → Arrival
  | none => .stop .fail
  | some t => .enter t

theorem react_label {op : DfavmOpIr} (h : op.label = some d) (rest : List DfavmOpIr) (c : Byte) :
    react (op :: rest) c = some (.enter d) := by
  rw [react, h]

theorem react_branch {op : DfavmOpIr} (h : op.label = none) (hi : op.instr = .branch d)
    (rest : List DfavmOpIr) (c : Byte) : react (op :: rest) c =
      if op.cmp.holds c op.cmpArg then some (.enter d) else react rest c := by
  simp only [react, h, hi]

@[simp] theorem react_opasmNewDest (cmp : VmCmp) (arg : Byte) (o : Option ℕ)
    (rest : List DfavmOpIr) (c : Byte) : react (opasmNewDest cmp arg o :: rest) c =
      if cmp.holds c arg then some (arrivalOf o) else react rest c := by
  cases o <;> rfl

@[simp] theorem VmCmp.holds_always (c arg : Byte) : VmCmp.always.holds c arg = true := rfl

@[simp] theorem VmCmp.holds_eq (c arg : Byte) : VmCmp.eq.holds c arg = decide (c = arg) := rfl

@[simp] theorem VmCmp.holds_le (c arg : Byte) : VmCmp.le.holds c arg = decide (c ≤ arg) := rfl

@[simp] theorem VmCmp.holds_ne (c arg : Byte) : VmCmp.ne.holds c arg = decide (c ≠ arg) := rfl

/-- An inverted condition holds exactly where the other does not. -/
theorem VmCmp.holds_invert {cmp cmp' : VmCmp} (h : cmp.invert = some cmp') (c arg : Byte) :
    cmp'.holds c arg = !cmp.holds c arg := by
  cases cmp <;> cases h <;>
    simp only [VmCmp.holds, ← decide_not, not_lt, not_le, ne_eq, not_not]

/-! ## §2 Tables -/

/-- The opcodes of a body: none is the first of a state or a fetch, nothing leads to them yet,
and branches lead to states. -/
structure BodyOp (known : ℕ → Prop) (op : DfavmOpIr) : Prop where
  label : op.label = none
  isFetch : op.isFetch = false
  numIncoming : op.numIncoming = 0
  dest : ∀ d, op.branchDest = some d → known d

theorem bodyOp_opasmNewDest (cmp : VmCmp) (arg : Byte) {o : Option ℕ}
    (h : ∀ t, o = some t → known t) : BodyOp known (opasmNewDest cmp arg o) := by
  cases o with
  | none => exact ⟨rfl, rfl, rfl, fun d hd => absurd hd (by simp [opasmNewDest, opasmNewStop,
      DfavmOpIr.branchDest])⟩
  | some t => exact ⟨rfl, rfl, rfl, fun d hd => h d hd⟩

section Table

variable (tbl : DfaTable)

/-- The state of `xlate_table_ranges` before entry `i`: the symbols below the start of the range
are dealt with, and the range has one destination. -/
structure RangesInv (known : ℕ → Prop) (i : ℕ) (st : Byte × List DfavmOpIr) : Prop where
  lo_lt : st.1.val < i
  same : ∀ j : Byte, st.1 ≤ j → j.val < i → tbl j = tbl st.1
  below : ∀ (c : Byte) rest, c < st.1 → react (st.2 ++ rest) c = some (arrivalOf (tbl c))
  above : ∀ (c : Byte) rest, st.1 ≤ c → react (st.2 ++ rest) c = react rest c
  body : ∀ op ∈ st.2, BodyOp known op

variable {tbl}

theorem rangesInv_step (hk : ∀ c t, tbl c = some t → known t) {i : Byte}
    {st : Byte × List DfavmOpIr} (h : RangesInv tbl known i.val st) :
    RangesInv tbl known (i.val + 1) (xlateRangesStep tbl st i) := by
  obtain ⟨lo, ops⟩ := st
  have hlo : lo.val < i.val := h.lo_lt
  have hpred : (i - 1 : Byte).val = i.val - 1 := by
    rw [Fin.sub_val_of_le (Fin.le_def.mpr (by simpa using by omega))]
    rfl
  unfold xlateRangesStep
  split
  case isFalse heq =>
    have heq : tbl lo = tbl i := not_not.mp heq
    refine ⟨by simpa using by omega, fun j hj hji => ?_, h.below, h.above, h.body⟩
    rcases lt_or_ge j.val i.val with hlt | hge
    · exact h.same j hj hlt
    · rw [heq, Fin.ext (show j.val = i.val by omega)]
  case isTrue hne =>
    -- the new opcode takes the symbols of the range, and lets later ones pass
    have hcond : ∀ c : Byte, lo ≤ c →
        ((if lo.val + 1 < i.val then VmCmp.le else .eq).holds c (i - 1) = true ↔ c < i) := by
      intro c hc
      have hc := Fin.le_def.mp hc
      split
      · simp only [VmCmp.holds_le, decide_eq_true_eq, Fin.le_def, Fin.lt_def, hpred]
        omega
      · simp only [VmCmp.holds_eq, decide_eq_true_eq, Fin.ext_iff, Fin.lt_def, hpred]
        omega
    refine ⟨Nat.lt_succ_self _, fun j hj hji => ?_, fun c rest hc => ?_, fun c rest hc => ?_, ?_⟩
    · rw [Fin.ext (show j.val = i.val by have := Fin.le_def.mp hj; simp at this; omega)]
    · rw [append_assoc]
      by_cases hlo' : c < lo
      · exact h.below c _ hlo'
      · have hge := not_lt.mp hlo'
        rw [h.above c _ hge, singleton_append, react_opasmNewDest,
          if_pos ((hcond c hge).mpr hc), ← h.same c hge hc]
    · have hge : lo ≤ c := le_trans (Fin.le_def.mpr hlo.le) hc
      rw [append_assoc, h.above c _ hge, singleton_append, react_opasmNewDest,
        if_neg fun hcond' => absurd ((hcond c hge).mp hcond') (not_lt.mpr hc)]
    · intro op hop
      rcases mem_append.mp hop with hop | hop
      · exact h.body op hop
      · rw [List.mem_singleton.mp hop]
        exact bodyOp_opasmNewDest _ _ (hk lo)

theorem rangesInv_foldl (hk : ∀ c t, tbl c = some t → known t) (l : List Byte) :
    ∀ {i n : ℕ} {st : Byte × List DfavmOpIr}, l.map Fin.val = range' i n →
      RangesInv tbl known i st →
      RangesInv tbl known (i + n) (l.foldl (xlateRangesStep tbl) st) := by
  induction l with
  | nil =>
    intro i n st hl h
    have hn : n = 0 := by simpa using (congrArg List.length hl).symm
    rwa [hn]
  | cons c l ih =>
    intro i n st hl h
    cases n with
    | zero => exact absurd hl (by simp)
    | succ n =>
      rw [map_cons, List.range'_succ, List.cons.injEq] at hl
      obtain ⟨rfl, hl⟩ := hl
      have := ih hl (rangesInv_step hk h)
      rwa [add_right_comm] at this

theorem rangesInv_last (hk : ∀ c t, tbl c = some t → known t) :
    RangesInv tbl known 256 ((finRange 256).tail.foldl (xlateRangesStep tbl) (0, [])) := by
  have hvals : (finRange 256).tail.map Fin.val = range' 1 255 := by decide +kernel
  have hinit : RangesInv tbl known 1 (0, []) := by
    refine ⟨Nat.one_pos, fun j _ hj => ?_, fun c rest hc => absurd hc (Fin.not_lt_zero c),
      fun c rest _ => rfl, fun op hop => absurd hop not_mem_nil⟩
    rw [Fin.ext (show j.val = (0 : Byte).val by simpa using hj)]
  exact rangesInv_foldl hk _ hvals hinit

/-- `xlate_table_ranges` leads where the table says. -/
theorem react_xlateTableRanges (c : Byte) (rest : List DfavmOpIr) :
    react (xlateTableRanges tbl ++ rest) c = some (arrivalOf (tbl c)) := by
  have hk : ∀ c t, tbl c = some t → True := fun _ _ _ => trivial
  have h := rangesInv_last hk
  unfold xlateTableRanges
  rw [append_assoc]
  rcases lt_or_ge c ((finRange 256).tail.foldl (xlateRangesStep tbl) (0, [])).1 with hlt | hge
  · exact h.below c _ hlt
  · rw [h.above c _ hge, singleton_append, react_opasmNewDest, VmCmp.holds_always, if_pos rfl,
      h.same c hge c.isLt]

theorem bodyOp_xlateTableRanges (hk : ∀ c t, tbl c = some t → known t) :
    ∀ op ∈ xlateTableRanges tbl, BodyOp known op := by
  intro op hop
  rcases mem_append.mp hop with hop | hop
  · exact (rangesInv_last hk).body op hop
  · rw [List.mem_singleton.mp hop]
    exact bodyOp_opasmNewDest _ _ (hk _)

/-- `xlate_table_cases` leads where the table says, whatever the mode is. -/
theorem react_xlateTableCases (mdst : Option ℕ) (c : Byte) (rest : List DfavmOpIr) :
    react (xlateTableCases tbl mdst ++ rest) c = some (arrivalOf (tbl c)) := by
  have hcases : ∀ (l : List Byte) rest,
      react (l.filterMap (fun i => if tbl i = mdst then none else
        some (opasmNewDest .eq i (tbl i))) ++ rest) c =
      if c ∈ l ∧ tbl c ≠ mdst then some (arrivalOf (tbl c)) else react rest c := by
    intro l rest
    induction l with
    | nil => simp
    | cons i l ih =>
      by_cases hi : tbl i = mdst
      · rw [filterMap_cons_none (by rw [if_pos hi]), ih]
        by_cases hci : c = i
        · subst hci
          simp [hi]
        · simp [hci]
      · rw [filterMap_cons_some (by rw [if_neg hi]), cons_append, react_opasmNewDest, ih]
        by_cases hci : c = i
        · subst hci
          simp [hi]
        · simp [hci]
  unfold xlateTableCases
  rw [append_assoc, hcases]
  by_cases hc : tbl c = mdst
  · rw [if_neg fun h => h.2 hc, singleton_append, react_opasmNewDest, VmCmp.holds_always,
      if_pos rfl, hc]
  · rw [if_pos ⟨mem_finRange c, hc⟩]

/-- The mode is one of the destinations. -/
theorem exists_tableMode (tbl : DfaTable) : ∃ c, tbl c = (tableMode tbl).1 := by
  have hlen : (((finRange 256).map tbl).insertionSort destLe).length = 256 := by simp
  have hmem : ∀ o ∈ ((finRange 256).map tbl).insertionSort destLe, ∃ c, tbl c = o := by
    intro o ho
    rw [mem_insertionSort, mem_map] at ho
    exact ho.imp fun c hc => hc.2
  unfold tableMode
  dsimp only
  generalize ((finRange 256).map tbl).insertionSort destLe = dests at hlen hmem
  apply hmem
  have hget : ∀ {lo : ℕ}, lo < 256 → dests.getD lo none ∈ dests := by
    intro lo hlo
    rw [getD_eq_getElem?_getD, getElem?_eq_getElem (hlen.symm ▸ hlo)]
    exact getElem_mem _
  -- up to the last entry either nothing has been found or a destination
  have hloop : ∀ (k i : ℕ) (st : ℕ × Option ℕ × ℕ), i + k ≤ 256 →
      st.1 < i ∧ (st = (0, none, 0) ∨ st.2.1 ∈ dests) →
      ((range' i k).foldl (modeStep dests) st).1 < i + k ∧
        ((range' i k).foldl (modeStep dests) st = (0, none, 0) ∨
          ((range' i k).foldl (modeStep dests) st).2.1 ∈ dests) := by
    intro k
    induction k with
    | zero => exact fun i st _ h => h
    | succ k ih =>
      intro i st hle h
      have := ih (i + 1) (modeStep dests st i) (by omega) ?_
      · rwa [add_right_comm] at this
      · unfold modeStep
        split
        · split
          · exact ⟨Nat.lt_succ_self i, Or.inr (hget (by omega))⟩
          · exact ⟨by omega, h.2⟩
        · exact ⟨by omega, h.2⟩
  obtain ⟨hlt, hst⟩ := hloop 255 1 (0, none, 0) le_rfl ⟨Nat.one_pos, Or.inl rfl⟩
  rw [show range' 1 256 = range' 1 255 ++ [256] from List.range'_1_concat, foldl_append]
  generalize (range' 1 255).foldl (modeStep dests) (0, none, 0) = st at hlt hst
  rw [foldl_cons, modeStep, if_pos (Or.inl rfl)]
  rcases hst with rfl | hst
  · exact hget (by decide)
  · split
    · exact hget hlt
    · exact hst

theorem bodyOp_xlateTableCases (hk : ∀ c t, tbl c = some t → known t) :
    ∀ op ∈ xlateTableCases tbl (tableMode tbl).1, BodyOp known op := by
  intro op hop
  rcases mem_append.mp hop with hop | hop
  · obtain ⟨i, -, hi⟩ := mem_filterMap.mp hop
    split at hi
    · exact absurd hi (by simp)
    · rw [← Option.some.inj hi]
      exact bodyOp_opasmNewDest _ _ (hk i)
  · rw [List.mem_singleton.mp hop]
    obtain ⟨c, hc⟩ := exists_tableMode tbl
    exact bodyOp_opasmNewDest _ _ (hc ▸ hk c)

/-- A table with one destination: `analyze_table` finds its symbol. -/
theorem analyzeTable_ndst (h : (analyzeTable tbl).ndst = 1) : ∃ sym t,
    (analyzeTable tbl).dstIndLo = some sym ∧ tbl sym = some t ∧ ∀ c, c ≠ sym → tbl c = none := by
  -- the counts after any part of the scan
  have hfold : ∀ (l : List Byte) (info : TableInfo),
      (l.foldl (analyzeEntry tbl) info).ndst =
        info.ndst + (l.filter fun c => (tbl c).isSome).length ∧
      (l.foldl (analyzeEntry tbl) info).dstIndLo =
        info.dstIndLo.or (l.filter fun c => (tbl c).isSome).head? := by
    intro l
    induction l with
    | nil => simp
    | cons c l ih =>
      intro info
      rw [foldl_cons, (ih _).1, (ih _).2, analyzeEntry]
      split
      · rename_i hc
        rw [filter_cons_of_pos (by simpa using hc), length_cons]
        dsimp only
        refine ⟨by omega, ?_⟩
        cases info.dstIndLo <;> simp
      · rename_i hc
        rw [filter_cons_of_neg (by simpa using hc)]
        exact ⟨rfl, rfl⟩
  obtain ⟨hndst, hlo⟩ := hfold (finRange 256) ⟨0, none, none⟩
  rw [analyzeTable] at h ⊢
  rw [hndst, zero_add] at h
  obtain ⟨sym, hsym⟩ := length_eq_one_iff.mp h
  have hmem : ∀ c, (tbl c).isSome = true ↔ c = sym := by
    intro c
    have hc : c ∈ [sym] ↔ c = sym := List.mem_singleton
    rw [← hc, ← hsym, mem_filter]
    exact (and_iff_right (mem_finRange c)).symm
  obtain ⟨t, ht⟩ := Option.isSome_iff_exists.mp ((hmem sym).mpr rfl)
  refine ⟨sym, t, by rw [hlo, hsym]; rfl, ht, fun c hc => ?_⟩
  exact Option.not_isSome_iff_eq_none.mp fun hsome => hc ((hmem c).mp hsome)

/-- `initial_translate_table` leads where the table says. -/
theorem react_initialTranslateTable (c : Byte) (rest : List DfavmOpIr) :
    react (initialTranslateTable tbl ++ rest) c = some (arrivalOf (tbl c)) := by
  unfold initialTranslateTable
  dsimp only
  split
  case isTrue h =>
    obtain ⟨sym, t, hlo, ht, hnone⟩ := analyzeTable_ndst h
    rw [hlo]
    by_cases hc : c = sym
    · subst hc
      simp [react, opasmNewStop, opasmNewBranch, ht, arrivalOf]
    · simp [react, opasmNewStop, hc, hnone c hc, arrivalOf]
  case isFalse =>
    split
    · exact react_xlateTableCases _ c rest
    · exact react_xlateTableRanges c rest

theorem bodyOp_initialTranslateTable (hk : ∀ c t, tbl c = some t → known t) :
    ∀ op ∈ initialTranslateTable tbl, BodyOp known op := by
  unfold initialTranslateTable
  dsimp only
  split
  case isTrue h =>
    obtain ⟨sym, t, hlo, ht, -⟩ := analyzeTable_ndst h
    rw [hlo, Option.getD_some, ht]
    intro op hop
    rcases mem_pair.mp hop with rfl | rfl
    · exact bodyOp_opasmNewDest .ne sym (o := none) fun t ht => absurd ht (by simp)
    · exact bodyOp_opasmNewDest .always 0 (o := some t) fun t' ht' => hk sym t' (ht.trans ht')
  case isFalse =>
    split
    · exact bodyOp_xlateTableCases hk
    · exact bodyOp_xlateTableRanges hk

end Table

/-! ## §3 States -/

namespace Ir

variable (ir : Ir)

/-- The transitions that the states of the IR stand for. -/
def next (d : ℕ) (c : Byte) : Option ℕ := ir.states[d]?.bind fun st => st.strategy.decode c

/-- The end marks of the IR. -/
def isend (d : ℕ) : Bool := ir.states[d]?.any IrState.isend

/-- An end state that is never left. -/
def Sink (d : ℕ) : Prop := ∃ st, ir.states[d]? = some st ∧ st.isend = true ∧ st.strategy = .irSame d

/-- The words that lead from the start state to an end state. -/
def accepts (w : List Byte) : Bool := (walk ir.next ir.start w).any ir.isend

/-- The states of the IR decode to a transition function: they lead to states, and no symbol is
in two groups, or in a group and an error range. -/
structure Valid : Prop where
  start_lt : ir.states ≠ [] → ir.start < ir.states.length
  decode_lt : ∀ st ∈ ir.states, ∀ c t, st.strategy.decode c = some t → t < ir.states.length
  disjoint : ∀ st ∈ ir.states, st.strategy.groups.Pairwise fun g g' => ∀ c, g.Has c → ¬ g'.Has c
  error_disjoint : ∀ st ∈ ir.states, ∀ r ∈ st.strategy.errorRanges, ∀ g ∈ st.strategy.groups,
    ∀ c, r.Has c → ¬ g.Has c

variable {ir}

theorem Sink.isend (h : ir.Sink d) : ir.isend d = true := by
  obtain ⟨st, hst, hend, -⟩ := h
  rw [Ir.isend, hst, Option.any_some, hend]

theorem Sink.next (h : ir.Sink d) (c : Byte) : ir.next d c = some d := by
  obtain ⟨st, hst, -, hsame⟩ := h
  rw [Ir.next, hst, Option.bind_some, hsame, IrStrategy.decode]

end Ir

theorem rangesToTable_apply (tbl : DfaTable) (ranges : List IrRange) (dst : Option ℕ) (c : Byte) :
    rangesToTable tbl ranges dst c = if ∃ r ∈ ranges, r.Has c then dst else tbl c := by
  exact foldl_eq_ite (fun tbl : DfaTable => tbl c) fun _ _ => rfl

theorem foldl_groupToTable (groups : List IrGroup)
    (h : groups.Pairwise fun g g' => ∀ c, g.Has c → ¬ g'.Has c) (tbl : DfaTable) (c : Byte) :
    groups.foldl groupToTable tbl c = (findGroup groups c).or (tbl c) := by
  induction groups generalizing tbl with
  | nil => rfl
  | cons g groups ih =>
    rw [foldl_cons, ih h.of_cons, groupToTable, rangesToTable_apply]
    unfold findGroup
    by_cases hg : g.Has c
    · -- the later groups do not have the symbol
      have hnone : groups.find? (fun g => g.Has c) = none := by
        rw [find?_eq_none]
        intro g' hg'
        simpa using (pairwise_cons.mp h).1 g' hg' c hg
      rw [find?_cons_of_pos (by simpa using hg), hnone,
        if_pos (show ∃ r ∈ g.ranges, r.Has c from hg)]
      rfl
    · rw [find?_cons_of_neg (by simpa using hg), if_neg (show ¬ ∃ r ∈ g.ranges, r.Has c from hg)]

/-- What the opcodes after the fetch do, for each strategy that is supported. -/
theorem initialTranslateStrategy_spec {st : IrStrategy}
    (hk : ∀ c t, st.decode c = some t → known t)
    (hdisj : st.groups.Pairwise fun g g' => ∀ c, g.Has c → ¬ g'.Has c)
    (herr : ∀ r ∈ st.errorRanges, ∀ g ∈ st.groups, ∀ c, r.Has c → ¬ g.Has c)
    {body : List DfavmOpIr} (h : initialTranslateStrategy st = some body) :
    (∀ op ∈ body, BodyOp known op) ∧
      ∀ c rest, react (body ++ rest) c = some (arrivalOf (st.decode c)) := by
  -- all but the first two strategies go through a table
  have htable : ∀ tbl : DfaTable, (∀ c, tbl c = st.decode c) → body = initialTranslateTable tbl →
      (∀ op ∈ body, BodyOp known op) ∧
        ∀ c rest, react (body ++ rest) c = some (arrivalOf (st.decode c)) := by
    rintro tbl htbl rfl
    refine ⟨bodyOp_initialTranslateTable fun c t ht => hk c t (htbl c ▸ ht), fun c rest => ?_⟩
    rw [react_initialTranslateTable, htbl]
  cases st with
  | irNone =>
    cases h
    refine ⟨fun op hop => ?_, fun c rest => rfl⟩
    rw [List.mem_singleton.mp hop]
    exact bodyOp_opasmNewDest .always 0 (o := none) (hk 0)
  | irSame t =>
    cases h
    refine ⟨fun op hop => ?_, fun c rest => rfl⟩
    rw [List.mem_singleton.mp hop]
    exact bodyOp_opasmNewDest .always 0 (o := some t) (hk 0)
  | irComplete groups =>
    exact absurd h (by simp [initialTranslateStrategy, initialTranslatePartial])
  | irPartial groups =>
    refine htable _ (fun c => ?_) (Option.some.inj h).symm
    rw [foldl_groupToTable groups hdisj, Option.or_none, IrStrategy.decode]
  | irDominant mode groups =>
    refine htable _ (fun c => ?_) (Option.some.inj h).symm
    rw [foldl_groupToTable groups hdisj, IrStrategy.decode]
    cases findGroup groups c <;> rfl
  | irError mode error groups =>
    refine htable _ (fun c => ?_) (Option.some.inj h).symm
    rw [foldl_groupToTable groups hdisj, IrStrategy.decode, rangesToTable_apply]
    split
    · rename_i hc
      -- an error range has no symbol of a group
      obtain ⟨r, hr, hrc⟩ := hc
      have hnone : findGroup groups c = none := by
        rw [findGroup, Option.map_eq_none_iff, find?_eq_none]
        intro g hg
        simpa using herr r hr g hg c hrc
      rw [hnone, Option.none_or]
    · cases findGroup groups c <;> rfl

/-- Only a complete state is not translated. -/
theorem initialTranslateStrategy_isSome {st : IrStrategy} :
    (initialTranslateStrategy st).isSome = true ↔ ∀ groups, st ≠ .irComplete groups := by
  cases st <;> simp [initialTranslateStrategy, initialTranslatePartial]

theorem initialTranslateState_isSome (st : IrState) (d : ℕ) :
    (initialTranslateState st d).isSome = true ↔ ∀ groups, st.strategy ≠ .irComplete groups := by
  rw [← initialTranslateStrategy_isSome]
  unfold initialTranslateState
  split
  · rename_i h
    simp [h.2, initialTranslateStrategy]
  · rw [Option.isSome_map]

/-- The first opcode of a state. -/
structure DfavmOpIr.IsHead (ir : Ir) (d : ℕ) (op : DfavmOpIr) : Prop where
  label : op.label = some d
  cmp : op.cmp = .always
  sink : ir.Sink d → op.instr = .stop .succ
  state : ¬ ir.Sink d → op.instr = .fetch d (if ir.isend d then .succ else .fail)

/-- The opcodes of one state. -/
def Chain (ir : Ir) (d : ℕ) (head : DfavmOpIr) (body : List DfavmOpIr) : Prop :=
  head.IsHead ir d ∧ (∀ op ∈ body, BodyOp (· < ir.states.length) op) ∧
    (¬ ir.Sink d → ∀ c rest, react (body ++ rest) c = some (arrivalOf (ir.next d c)))

theorem initialTranslateState_chain {ir : Ir} (hir : ir.Valid) {st : IrState}
    (hst : ir.states[d]? = some st) {chain : List DfavmOpIr}
    (h : initialTranslateState st d = some chain) :
    ∃ head body, chain = head :: body ∧ head.numIncoming = 0 ∧ Chain ir d head body := by
  have hmem := mem_of_getElem? hst
  have hsink : ir.Sink d ↔ st.isend = true ∧ st.strategy = .irSame d := by
    constructor
    · rintro ⟨st', hst', hsink⟩
      rwa [Option.some.inj (hst.symm.trans hst')]
    · exact fun hsink => ⟨st, hst, hsink⟩
  unfold initialTranslateState at h
  split at h
  case isTrue hs =>
    refine ⟨_, [], (Option.some.inj h).symm, rfl, ⟨rfl, rfl, fun _ => rfl, fun hn => ?_⟩,
      fun op hop => absurd hop not_mem_nil, fun hn => ?_⟩
    · exact absurd (hsink.mpr hs) hn
    · exact absurd (hsink.mpr hs) hn
  case isFalse hs =>
    obtain ⟨body, hbody, rfl⟩ := Option.map_eq_some_iff.mp h
    obtain ⟨hops, hreact⟩ := initialTranslateStrategy_spec (hir.decode_lt st hmem)
      (hir.disjoint st hmem) (hir.error_disjoint st hmem) hbody
    refine ⟨_, body, rfl, rfl, ⟨rfl, rfl, fun hn => absurd (hsink.mp hn) hs, fun _ => ?_⟩, hops,
      fun _ c rest => ?_⟩
    · rw [Ir.isend, hst]
      rfl
    · rw [hreact, Ir.next, hst, Option.bind_some]

end Libfsm
