import Libfsm.Fsm.Semantics
import Libfsm.Lib.MooreClasses

/-!
# Consolidation

`fsm_consolidate`: a new FSM in which states with the same number in a mapping are one state.
Labelled edges, epsilon edges and the end mark are those of the first state with the number; IDs
and captures are those of all states with it.

- `fsmConsolidate`: the function
- `Consolidated`: what it does
- `fsmConsolidate_consolidated`: the function does it
-/

namespace Libfsm

open Lib
open List hiding nil cons

variable {mapping : ℕ → ℕ} {n s : ℕ} {q src : Fsm} {r : Fsm × (ℕ → Bool)}

/-! ## §1 The Function -/

/-- A state copied verbatim, with its destinations renumbered. -/
def consolidatedState (src : Fsm) (mapping : ℕ → ℕ) (srcI : ℕ) (st : FsmState) : FsmState :=
  { st with
    epsilons := stateSetCompact (stateSetCopy st.epsilons (src.state srcI).epsilons)
      fun id => some (mapping id)
    edges := edgeSetCompact (edgeSetCopy (src.state srcI).edges) fun id => some (mapping id) }

/-- The loop body that copies the first state of each number. -/
def consolidateState (src : Fsm) (mapping : ℕ → ℕ) (st : Fsm × (ℕ → Bool)) (srcI : ℕ) :
    Fsm × (ℕ → Bool) :=
  let (dst, seen) := st
  let dstI := mapping srcI
  if seen dstI then (dst, seen)
  else
    let dst := dst.modifyState dstI (consolidatedState src mapping srcI)
    (if fsmIsend src srcI then fsmSetend dst dstI true else dst, Function.update seen dstI true)

def consolidateCopyCaptureActions (dst src : Fsm) (mapping : ℕ → ℕ) : Fsm :=
  let rename (a : CaptureAction) : CaptureAction :=
    { a with state := mapping a.state, dest := a.dest.map mapping }
  { dst with
    captureInfo := src.captureInfo.buckets.foldl (fun ci a => ci.addAction (rename a))
      dst.captureInfo }

def consolidateEndIds (dst src : Fsm) (mapping : ℕ → ℕ) : Fsm :=
  { dst with
    endidInfo := src.endidInfo.entries.foldl (fun m e => endidSetBulk m (mapping e.1) e.2 .append)
      dst.endidInfo }

def consolidateEagerOutputIds (dst src : Fsm) (mapping : ℕ → ℕ) : Fsm :=
  src.eagerOutputInfo.entries.foldl (fun dst e =>
    e.2.foldl (fun dst id => fsmEagerOutputSet dst (mapping e.1) id) dst) dst

def fsmConsolidate (src : Fsm) (mapping : ℕ → ℕ) (mappingCount : ℕ) : Fsm :=
  let maxUsed := (range mappingCount).foldl (fun maxUsed srcI => max maxUsed (mapping srcI)) 0
  let dst := fsmAddstateBulk fsmNew (maxUsed + 1)
  let (dst, _) := (range mappingCount).foldl (consolidateState src mapping)
    (dst, fun _ => false)
  let dst := consolidateCopyCaptureActions dst src mapping
  let dst := consolidateEndIds dst src mapping
  let dst := match fsmGetstart src with
    | none => dst
    | some start => fsmSetstart dst (mapping start)
  consolidateEagerOutputIds dst src mapping

/-! ## §2 Its Parts -/

theorem foldl_max_mapping_mem (mapping : ℕ → ℕ) (l : List ℕ) (m : ℕ) :
    l.foldl (fun m i => max m (mapping i)) m = m ∨
      ∃ i ∈ l, l.foldl (fun m i => max m (mapping i)) m = mapping i := by
  induction l generalizing m with
  | nil => exact .inl rfl
  | cons i l ih =>
    rw [foldl_cons]
    rcases ih (max m (mapping i)) with h | ⟨j, hj, h⟩
    · rw [h]
      rcases max_choice m (mapping i) with h' | h'
      · exact .inl h'
      · exact .inr ⟨i, mem_cons_self, h'⟩
    · exact .inr ⟨j, mem_cons_of_mem i hj, h⟩

section Loop

variable {src : Fsm} {mapping : ℕ → ℕ}

/-- The state that the loop makes of the first state of a number. -/
def firstCopy (src : Fsm) (mapping : ℕ → ℕ) (srcI : ℕ) : FsmState :=
  { consolidatedState src mapping srcI .fresh with isEnd := fsmIsend src srcI }

/-- **The loop**: every number that was met has the copy of a state with that number, every other
number still has a fresh state. -/
structure Copied (src : Fsm) (mapping : ℕ → ℕ) (n : ℕ) (met : List ℕ) (st : Fsm × (ℕ → Bool)) :
    Prop where
  statecount : st.1.statecount = n
  seen : ∀ j, st.2 j = true ↔ ∃ i ∈ met, mapping i = j
  copy : ∀ j, st.2 j = true → ∃ i ∈ met, mapping i = j ∧ st.1.state j = firstCopy src mapping i
  fresh : ∀ j, st.2 j = false → st.1.state j = .fresh
  tables : st.1.endidInfo = ∅ ∧ st.1.eagerOutputInfo = ∅ ∧ st.1.start = none

theorem Copied.step {met : List ℕ} {st : Fsm × (ℕ → Bool)} (h : Copied src mapping n met st)
    {i : ℕ} (hi : mapping i < n) :
    Copied src mapping n (met ++ [i]) (consolidateState src mapping st i) := by
  obtain ⟨dst, seen⟩ := st
  have hmem : ∀ j, (∃ k ∈ met ++ [i], mapping k = j) ↔
      (∃ k ∈ met, mapping k = j) ∨ mapping i = j := by
    intro j
    simp only [List.mem_append, List.mem_singleton, or_and_right, exists_or, exists_eq_left]
  unfold consolidateState
  by_cases hseen : seen (mapping i) = true
  · -- the number has its state already
    simp only [hseen, if_true]
    refine ⟨h.statecount, fun j => ?_, fun j hj => ?_, h.fresh, h.tables⟩
    · rw [hmem, ← h.seen]
      constructor
      · exact .inl
      · intro hj
        rcases hj with hj | hj
        · exact hj
        · exact hj ▸ hseen
    · obtain ⟨k, hk, hkj, hstate⟩ := h.copy j hj
      exact ⟨k, mem_append_left _ hk, hkj, hstate⟩
  · have hfresh : dst.state (mapping i) = .fresh := h.fresh _ (Bool.eq_false_of_not_eq_true hseen)
    have hlt : mapping i < dst.statecount := h.statecount.symm ▸ hi
    dsimp only
    rw [if_neg hseen]
    set new : Fsm := if fsmIsend src i then
      fsmSetend (dst.modifyState (mapping i) (consolidatedState src mapping i)) (mapping i) true
      else dst.modifyState (mapping i) (consolidatedState src mapping i) with hnew
    have hcount : new.statecount = dst.statecount := by
      rw [hnew]
      split <;> simp
    have hself : new.state (mapping i) = firstCopy src mapping i := by
      rw [hnew, firstCopy]
      split
      · rename_i hend
        rw [state_fsmSetend, if_pos ⟨rfl, by simpa using hlt⟩, Fsm.state_modifyState_self hlt,
          hfresh, hend]
      · rename_i hend
        rw [Fsm.state_modifyState_self hlt, hfresh, Bool.eq_false_of_not_eq_true hend]
        rfl
    have hother : ∀ j, j ≠ mapping i → new.state j = dst.state j := by
      intro j hj
      rw [hnew]
      split
      · rw [state_fsmSetend, if_neg fun h => hj h.1, Fsm.state_modifyState_ne hj]
      · rw [Fsm.state_modifyState_ne hj]
    have htables : new.endidInfo = ∅ ∧ new.eagerOutputInfo = ∅ ∧ new.start = none := by
      rw [hnew]
      split <;> simpa using h.tables
    refine ⟨hcount.trans h.statecount, fun j => ?_, fun j hj => ?_, fun j hj => ?_, htables⟩
    · rw [hmem, ← h.seen]
      by_cases hj : j = mapping i
      · simp [hj]
      · simp [Function.update_of_ne hj, Ne.symm hj]
    · by_cases hji : j = mapping i
      · exact ⟨i, mem_append_right _ mem_cons_self, hji.symm, hji ▸ hself⟩
      · simp only [Function.update_of_ne hji] at hj
        obtain ⟨k, hk, hkj, hstate⟩ := h.copy j hj
        exact ⟨k, mem_append_left _ hk, hkj, (hother j hji).trans hstate⟩
    · by_cases hji : j = mapping i
      · simp [hji] at hj
      · simp only [Function.update_of_ne hji] at hj
        exact (hother j hji).trans (h.fresh j hj)

theorem copied_foldl (l : List ℕ) {met : List ℕ} {st : Fsm × (ℕ → Bool)}
    (h : Copied src mapping n met st) (hl : ∀ i ∈ l, mapping i < n) :
    Copied src mapping n (met ++ l) (l.foldl (consolidateState src mapping) st) := by
  induction l generalizing met st with
  | nil => rwa [append_nil]
  | cons i l ih =>
    have hstep := h.step (hl i mem_cons_self)
    have hrest := ih hstep fun j hj => hl j (mem_cons_of_mem i hj)
    rwa [append_assoc] at hrest

end Loop

/-- The IDs in the entries of a table, by the numbers of their states. -/
theorem exists_entries_iff {m : IdTable} {j id : ℕ} :
    (∃ e ∈ m.entries, mapping e.1 = j ∧ id ∈ e.2) ↔ ∃ s, mapping s = j ∧ id ∈ m.get s := by
  constructor
  · intro ⟨e, he, hj, hid⟩
    exact ⟨e.1, hj, (IdTable.get_eq_of_mem_entries he).symm ▸ hid⟩
  · intro ⟨s, hs, hid⟩
    obtain ⟨e, he, hes, hid⟩ := IdTable.exists_mem_entries_iff.mp hid
    exact ⟨e, he, hes ▸ hs, hid⟩

/-- The end IDs of a number are those of all states with it. -/
theorem mem_get_consolidateEndIds (dst src : Fsm) (mapping : ℕ → ℕ) (j id : ℕ) :
    id ∈ (consolidateEndIds dst src mapping).endidInfo.get j ↔
      id ∈ dst.endidInfo.get j ∨ ∃ s, mapping s = j ∧ id ∈ src.endidInfo.get s := by
  rw [consolidateEndIds, ← exists_entries_iff]
  apply foldl_or_iff (id ∈ IdTable.get · j)
  intro m e
  rw [endidSetBulk, IdTable.get_insert]
  split
  · rename_i h
    simp [h]
  · rename_i h
    simp [Ne.symm h]

/-- The eager outputs of a number are those of all states with it, and nothing else is
touched. -/
theorem consolidateEagerOutputIds_spec (dst src : Fsm) (mapping : ℕ → ℕ) :
    SameButEager dst (consolidateEagerOutputIds dst src mapping) ∧
      ∀ j id, id ∈ (consolidateEagerOutputIds dst src mapping).eagerOutputInfo.get j ↔
        id ∈ dst.eagerOutputInfo.get j ∨ ∃ s, mapping s = j ∧ id ∈ src.eagerOutputInfo.get s := by
  refine ⟨.foldl src.eagerOutputInfo.entries (fun dst e =>
    (foldl_fsmEagerOutputSet (mapping e.1) e.2 dst).1) dst, fun j id => ?_⟩
  rw [consolidateEagerOutputIds, foldl_or_iff (fun dst : Fsm => id ∈ dst.eagerOutputInfo.get j)
    fun dst e => by rw [(foldl_fsmEagerOutputSet (mapping e.1) e.2 dst).2, eq_comm],
    exists_entries_iff]

/-! ## §3 What It Does -/

/-- `q` is `src` with the states of each number made one.  Edges and marks are those of some
state with the number. -/
structure Consolidated (src : Fsm) (mapping : ℕ → ℕ) (n : ℕ) (q : Fsm) : Prop where
  lt : ∀ {i}, i < n → mapping i < q.statecount
  last : 0 < n → ∃ i < n, q.statecount = mapping i + 1
  copy : ∀ {j}, (∃ i < n, mapping i = j) → ∃ i < n, mapping i = j ∧
    (∀ c u, q.Edge j c u ↔ ∃ t, src.Edge i c t ∧ mapping t = u) ∧
    (∀ u, q.Eps j u ↔ ∃ t, src.Eps i t ∧ mapping t = u) ∧ (q.IsEnd j ↔ src.IsEnd i)
  fresh : ∀ {j}, (¬∃ i < n, mapping i = j) → (∀ c u, ¬q.Edge j c u) ∧ ∀ u, ¬q.Eps j u
  endids : ∀ j id, id ∈ q.endidInfo.get j ↔ ∃ s, mapping s = j ∧ id ∈ src.endidInfo.get s
  eager : ∀ j id, id ∈ q.eagerOutputInfo.get j ↔
    ∃ s, mapping s = j ∧ id ∈ src.eagerOutputInfo.get s
  start : q.start = src.start.map mapping
  unmarked : q.Unmarked

/-- The largest number of the mapping. -/
def maxUsed (mapping : ℕ → ℕ) (n : ℕ) : ℕ :=
  (range n).foldl (fun maxUsed srcI => max maxUsed (mapping srcI)) 0

theorem mapping_le_maxUsed {i : ℕ} (hi : i < n) : mapping i ≤ maxUsed mapping n :=
  (le_foldl_max mapping _ 0).2 i (mem_range.mpr hi)

theorem exists_mapping_eq_maxUsed (hpos : 0 < n) : ∃ i < n, mapping i = maxUsed mapping n := by
  rcases foldl_max_mapping_mem mapping (range n) 0 with h | ⟨i, hi, h⟩
  · have hzero : mapping 0 = 0 := Nat.le_zero.mp ((mapping_le_maxUsed hpos).trans_eq h)
    exact ⟨0, hpos, hzero.trans h.symm⟩
  · exact ⟨i, mem_range.mp hi, h.symm⟩

/-- What the loop makes of the states, and the tables. -/
structure CopiedTo (src : Fsm) (mapping : ℕ → ℕ) (n : ℕ) (r : Fsm × (ℕ → Bool)) (q : Fsm) :
    Prop where
  copied : Copied src mapping (maxUsed mapping n + 1) (range n) r
  statecount : q.statecount = maxUsed mapping n + 1
  state : ∀ j, ∃ b, q.state j = { r.1.state j with hasEagerOutputs := b }
  endids : ∀ j id, id ∈ q.endidInfo.get j ↔ ∃ s, mapping s = j ∧ id ∈ src.endidInfo.get s
  eager : ∀ j id, id ∈ q.eagerOutputInfo.get j ↔
    ∃ s, mapping s = j ∧ id ∈ src.eagerOutputInfo.get s
  start : q.start = src.start.map mapping

theorem fsmConsolidate_copiedTo (src : Fsm) (mapping : ℕ → ℕ) (n : ℕ) :
    ∃ r, CopiedTo src mapping n r (fsmConsolidate src mapping n) := by
  set dst₀ := fsmAddstateBulk fsmNew (maxUsed mapping n + 1) with hdst₀
  have hinit : Copied src mapping (maxUsed mapping n + 1) [] (dst₀, fun _ => false) := by
    obtain ⟨alloc, halloc⟩ := fsmAddstateBulk_eq fsmNew (maxUsed mapping n + 1)
    refine ⟨?_, by simp, by simp, fun j _ => ?_, ?_⟩
    · simp [hdst₀, fsmNew]
    · rw [state_fsmAddstateBulk]
      exact Fsm.state_of_le (Nat.zero_le j)
    · rw [hdst₀, halloc]
      exact ⟨rfl, rfl, rfl⟩
  have hcopied := copied_foldl (range n) hinit fun i hi =>
    Nat.lt_succ_of_le (mapping_le_maxUsed (mem_range.mp hi))
  set r := (range n).foldl (consolidateState src mapping) (dst₀, fun _ => false) with hr
  set dst₁ := consolidateEndIds (consolidateCopyCaptureActions r.1 src mapping) src mapping
    with hdst₁
  set dst₂ : Fsm := match fsmGetstart src with
    | none => dst₁
    | some start => fsmSetstart dst₁ (mapping start) with hdst₂
  have hq : fsmConsolidate src mapping n = consolidateEagerOutputIds dst₂ src mapping := rfl
  have hstates : dst₂.states = r.1.states := by
    rw [hdst₂]
    split <;> rfl
  have hids₂ : dst₂.endidInfo = dst₁.endidInfo := by
    rw [hdst₂]
    split <;> rfl
  have heager₂ : dst₂.eagerOutputInfo = ∅ := by
    rw [hdst₂]
    split <;> exact hcopied.tables.2.1
  have hstart₂ : dst₂.start = src.start.map mapping := by
    rw [hdst₂, fsmGetstart]
    cases src.start with
    | none => exact hcopied.tables.2.2
    | some start => rfl
  -- the eager outputs touch no other field
  obtain ⟨hsame, heager⟩ := consolidateEagerOutputIds_spec dst₂ src mapping
  rw [← hq] at hsame heager
  refine ⟨r, hcopied, ?_, fun j => ?_, fun j id => ?_, fun j id => ?_, hsame.start.trans hstart₂⟩
  · rw [hsame.statecount, Fsm.statecount, hstates]
    exact hcopied.statecount
  · have hstate : dst₂.state j = r.1.state j := by rw [Fsm.state, Fsm.state, hstates]
    rw [← hstate]
    exact hsame.state j
  · rw [hsame.endidInfo, hids₂, mem_get_consolidateEndIds]
    apply or_iff_right
    rw [consolidateCopyCaptureActions, hcopied.tables.1, IdTable.get_empty]
    exact not_mem_nil
  · rw [heager, heager₂]
    exact or_iff_right not_mem_nil

theorem CopiedTo.seen (h : CopiedTo src mapping n r q) (j : ℕ) :
    r.2 j = true ↔ ∃ i < n, mapping i = j := by
  rw [h.copied.seen]
  simp only [mem_range]

theorem CopiedTo.copy (h : CopiedTo src mapping n r q) {j : ℕ} (hj : ∃ i < n, mapping i = j) :
    ∃ i < n, mapping i = j ∧
      ∃ b, q.state j = { firstCopy src mapping i with hasEagerOutputs := b } := by
  obtain ⟨i, hi, hij, hcopy⟩ := h.copied.copy j ((h.seen j).mpr hj)
  obtain ⟨b, hb⟩ := h.state j
  rw [hcopy] at hb
  exact ⟨i, mem_range.mp hi, hij, b, hb⟩

theorem CopiedTo.fresh (h : CopiedTo src mapping n r q) {j : ℕ} (hj : ¬∃ i < n, mapping i = j) :
    ∃ b, q.state j = { FsmState.fresh with hasEagerOutputs := b } := by
  obtain ⟨b, hb⟩ := h.state j
  rw [h.copied.fresh j (Bool.eq_false_of_not_eq_true fun hr => hj ((h.seen j).mp hr))] at hb
  exact ⟨b, hb⟩

/-- **Consolidation**, exactly. -/
theorem fsmConsolidate_consolidated (src : Fsm) (mapping : ℕ → ℕ) (n : ℕ) :
    Consolidated src mapping n (fsmConsolidate src mapping n) := by
  obtain ⟨r, h⟩ := fsmConsolidate_copiedTo src mapping n
  refine ⟨fun hi => ?_, fun hpos => ?_, fun {j} hj => ?_, fun {j} hj => ?_, h.endids, h.eager,
    h.start, fun j _ => ?_⟩
  · rw [h.statecount]
    exact Nat.lt_succ_of_le (mapping_le_maxUsed hi)
  · obtain ⟨i, hi, hmax⟩ : ∃ i < n, mapping i = maxUsed mapping n :=
      exists_mapping_eq_maxUsed hpos
    exact ⟨i, hi, by rw [h.statecount, hmax]⟩
  · obtain ⟨i, hi, hij, b, hcopy⟩ := h.copy hj
    refine ⟨i, hi, hij, fun c u => ?_, fun u => ?_, ?_⟩
    · rw [Fsm.Edge, hcopy]
      simp [firstCopy, consolidatedState, Fsm.Edge]
    · rw [Fsm.Eps, hcopy]
      simp [firstCopy, consolidatedState, Fsm.Eps]
    · rw [Fsm.IsEnd, hcopy]
      rfl
  · obtain ⟨b, hfresh⟩ := h.fresh hj
    refine ⟨fun c u => ?_, fun u => ?_⟩
    · rw [Fsm.Edge, hfresh]
      exact hasEdge_null c u
    · rw [Fsm.Eps, hfresh]
      simp
  · by_cases hj : ∃ i < n, mapping i = j
    · obtain ⟨i, -, -, b, hcopy⟩ := h.copy hj
      rw [hcopy]
      rfl
    · obtain ⟨b, hfresh⟩ := h.fresh hj
      rw [hfresh]
      rfl

/-! ## §4 Quotients -/

namespace Consolidated

variable {src q : Fsm} {mapping : ℕ → ℕ}

/-- States of one number have the same mark and lead to the same numbers. -/
structure Respects (src : Fsm) (mapping : ℕ → ℕ) : Prop where
  isEnd : ∀ s < src.statecount, ∀ t < src.statecount, mapping s = mapping t →
    (src.IsEnd s ↔ src.IsEnd t)
  step : ∀ s < src.statecount, ∀ t < src.statecount, mapping s = mapping t → ∀ c,
    (src.next s c).map mapping = (src.next t c).map mapping

variable (h : Consolidated src mapping src.statecount q) (hdfa : src.IsDfa)
  (hresp : Respects src mapping)
include h hdfa hresp

theorem edge_iff (hs : s < src.statecount) (c : Byte) (u : ℕ) :
    q.Edge (mapping s) c u ↔ ∃ t, src.Edge s c t ∧ mapping t = u := by
  obtain ⟨i, hi, his, hedge, -, -⟩ := h.copy ⟨s, hs, rfl⟩
  rw [hedge]
  have hstep := hresp.step i hi s hs his c
  have hmap : ∀ r, (∃ t, src.Edge r c t ∧ mapping t = u) ↔
      (src.next r c).map mapping = some u := by
    intro r
    rw [Option.map_eq_some_iff]
    simp only [hdfa.next_eq_some_iff]
  rw [hmap, hmap, hstep]

omit hdfa in
theorem isEnd_iff (hs : s < src.statecount) : q.IsEnd (mapping s) ↔ src.IsEnd s := by
  obtain ⟨i, hi, his, -, -, hend⟩ := h.copy ⟨s, hs, rfl⟩
  rw [hend]
  exact hresp.isEnd i hi s hs his

omit hresp in
theorem isDfa (hpos : 0 < src.statecount) : q.IsDfa := by
  refine Fsm.isDfa_iff.mpr ⟨fun _ => ?_, fun j u hu => ?_, fun j c u v hu hv => ?_⟩
  · rw [h.start, Option.isSome_map]
    exact (Fsm.isDfa_iff.mp hdfa).1 hpos
  · by_cases hj : ∃ i < src.statecount, mapping i = j
    · obtain ⟨i, -, -, -, heps, -⟩ := h.copy hj
      obtain ⟨t, ht, -⟩ := (heps u).mp hu
      exact hdfa.not_eps i t ht
    · exact (h.fresh hj).2 u hu
  · by_cases hj : ∃ i < src.statecount, mapping i = j
    · obtain ⟨i, -, -, hedge, -, -⟩ := h.copy hj
      obtain ⟨t, ht, rfl⟩ := (hedge c u).mp hu
      obtain ⟨t', ht', rfl⟩ := (hedge c v).mp hv
      rw [hdfa.functional i c t t' ht ht']
    · exact absurd hu ((h.fresh hj).1 c u)

theorem next_eq (hs : s < src.statecount) (c : Byte) :
    q.next (mapping s) c = (src.next s c).map mapping := by
  apply Option.ext
  intro u
  rw [(h.isDfa hdfa (Nat.zero_lt_of_lt hs)).next_eq_some_iff, h.edge_iff hdfa hresp hs,
    Option.map_eq_some_iff]
  simp only [hdfa.next_eq_some_iff]

/-- **Runs** of the consolidated DFA are the runs of the DFA, renumbered. -/
theorem runFrom_eq (hwf : src.Wf) (hs : s < src.statecount) (w : List Byte) :
    q.runFrom (mapping s) w = (src.runFrom s w).map mapping := by
  have hclosed : ∀ r ∈ {r | r < src.statecount}, ∀ c t, src.next r c = some t →
      t ∈ {r | r < src.statecount} := fun r _ c t ht => hwf.edge_lt (Fsm.edge_of_next ht)
  exact runFrom_quotient hclosed (fun r hr c => h.next_eq hdfa hresp hr c) hs w

end Consolidated

end Libfsm
