import Libfsm.Fsm.Semantics

/-!
# Merging Two FSMs

`merge.c` puts the states of two FSMs into one array.  The operand with the larger
allocation keeps its state numbers; the other one is appended, and everything it stores by
state number is rebased.

- `Size`, `Size.goesFirst`: which operand keeps its numbers
- `StoredFsm`: an FSM with the counters that decide whether its table of end IDs can grow
- `merge`, `fsmMerge`: the merge itself and the offsets it reports
- `Placed`: an FSM's states appear in another FSM, all shifted by one offset
- `mergeOperands_placed_left`, `mergeOperands_placed_right`: both operands are placed at the
  offsets reported
- `Mergeable`, `fsmMerge_cases`: when no assertion fails while the tables are copied

A trimmed FSM may have capture actions for states that are gone, and a table of end IDs that
counts more buckets than it uses.  The results about states and edges are about
`mergeOperands`, which leaves the assertions out.
-/

namespace Libfsm

open Lib
open List hiding nil cons

variable {a b dst src x : Fsm}

/-! ## §1 The Merge -/

/-- `struct fsm_combine_info` -/
structure CombineInfo where
  baseA : ℕ := 0
  baseB : ℕ := 0
  captureBaseA : ℕ := 0
  captureBaseB : ℕ := 0
  deriving DecidableEq, Repr

/-- Shift every state number stored on a state. -/
def FsmState.rebase (st : FsmState) (base : ℕ) : FsmState :=
  { st with epsilons := stateSetRebase st.epsilons base, edges := edgeSetRebase st.edges base }

/-- What the static `merge` makes of the two FSMs: the states of `src` are appended to those of
`dst`.  The eager output flags travel with the states, and the start states of both are cleared. -/
def mergeStates (dst src : Fsm) : Fsm :=
  { states := dst.states ++ src.states.map fun st => st.rebase dst.statecount
    statealloc :=
      if dst.statealloc < src.statecount + dst.statecount then
        src.statecount + dst.statecount
      else dst.statealloc
    endcount := dst.endcount + src.endcount
    start := none
    captureInfo := dst.captureInfo.copyActions
      ((src.captureInfo.rebaseId dst.captureInfo.count).rebaseStates dst.statecount)
    endidInfo := endidCopy dst.endidInfo src.endidInfo dst.statecount
    eagerOutputInfo := eagerOutputCopy dst.eagerOutputInfo src.eagerOutputInfo dst.statecount }

/-- What `fsm_merge` compares: allocated and used states. -/
structure Size where
  alloc : ℕ
  count : ℕ
  deriving DecidableEq, Repr

/-- The size of an FSM. -/
def Fsm.size (f : Fsm) : Size := ⟨f.statealloc, f.statecount⟩

/-- `a_dst` of `fsm_merge`: whether the first operand keeps its state numbers. -/
def Size.goesFirst (a b : Size) : Bool :=
  if a.alloc > b.alloc then true
  else if a.alloc < b.alloc then false
  else if a.count > b.count then true
  else if a.count < b.count then false
  else true

/-- What `fsm_merge` makes of its operands, when no assertion fails. -/
def mergeOperands (a b : Fsm) : Fsm × CombineInfo :=
  if a.size.goesFirst b.size then
    (mergeStates a b, { baseB := a.statecount, captureBaseB := a.captureInfo.count })
  else
    (mergeStates b a, { baseA := b.statecount, captureBaseA := b.captureInfo.count })

/-- The number of states with end IDs. -/
def Fsm.endidStates (f : Fsm) : ℕ :=
  (range f.statecount).countP fun s => !(f.endidInfo.get s).isEmpty

/-- An FSM with the counters of its hash table of end IDs, in which each state with IDs takes a
bucket. -/
structure StoredFsm extends Fsm where
  bucketCount : ℕ
  bucketsUsed : ℕ

/-- The counters, and the number of buckets that are in use. -/
def StoredFsm.counters (f : StoredFsm) : EndidCounters :=
  ⟨f.bucketCount, f.bucketsUsed, f.endidStates⟩

/-- State numbers are in range and the counters are those of a table. -/
structure StoredFsm.Valid (f : StoredFsm) : Prop where
  wf : f.Wf
  counters : f.counters.Valid

theorem StoredFsm.valid_of_wfCheck {f : StoredFsm} (hwf : f.wfCheck = true)
    (hcounters : f.bucketCount = 4 ∧ f.endidStates ≤ f.bucketsUsed ∧ f.bucketsUsed ≤ 2) :
    f.Valid := by
  obtain ⟨hcount, hocc, hused⟩ := hcounters
  refine ⟨Fsm.wf_of_wfCheck hwf, ⟨1, by decide, hcount⟩, hocc, ?_⟩
  show f.bucketsUsed ≤ f.bucketCount / 2
  omega

/-- The static `merge`. -/
def merge (dst src : StoredFsm) : Option StoredFsm :=
  -- `add_capture_action` asserts that the actions are about states of the result; the table of
  -- end IDs asserts that it grows as it should
  if src.captureInfo.Below src.statecount then
    (EndidCounters.newBuckets src.endidStates dst.counters).map fun c =>
      ⟨mergeStates dst.toFsm src.toFsm, c.bucketCount, c.bucketsUsed⟩
  else none

def fsmMerge (a b : StoredFsm) : Option (StoredFsm × CombineInfo) :=
  (if a.size.goesFirst b.size then merge a b else merge b a).map fun q =>
    (q, (mergeOperands a.toFsm b.toFsm).2)

/-! ## §2 One FSM Inside Another -/

/-- The states of `x` appear in `q`, shifted by `base`: same end marks, same end IDs, and
the same edges with shifted destinations. -/
structure Placed (x q : Fsm) (base : ℕ) : Prop where
  le : x.statecount + base ≤ q.statecount
  edge : ∀ s < x.statecount, ∀ c t, q.Edge (s + base) c t ↔ ∃ t', x.Edge s c t' ∧ t' + base = t
  eps : ∀ s < x.statecount, ∀ t, q.Eps (s + base) t ↔ ∃ t', x.Eps s t' ∧ t' + base = t
  isEnd : ∀ s < x.statecount, (q.IsEnd (s + base) ↔ x.IsEnd s)
  endids : ∀ s < x.statecount, ∀ i,
    i ∈ q.endidInfo.get (s + base) ↔ i ∈ x.endidInfo.get s

theorem Placed.trans {y z : Fsm} {b₁ b₂ : ℕ} (h₁ : Placed x y b₁) (h₂ : Placed y z b₂) :
    Placed x z (b₁ + b₂) := by
  have hlt : ∀ s < x.statecount, s + b₁ < y.statecount := fun s hs => by
    have := h₁.le
    omega
  refine ⟨?_, ?_, ?_, ?_, ?_⟩
  · have := h₁.le
    have := h₂.le
    omega
  · intro s hs c t
    rw [← add_assoc, h₂.edge (s + b₁) (hlt s hs)]
    constructor
    · rintro ⟨t', ht', rfl⟩
      obtain ⟨t'', ht'', rfl⟩ := (h₁.edge s hs c t').mp ht'
      exact ⟨t'', ht'', (add_assoc _ _ _).symm⟩
    · rintro ⟨t'', ht'', rfl⟩
      exact ⟨t'' + b₁, (h₁.edge s hs c _).mpr ⟨t'', ht'', rfl⟩, add_assoc _ _ _⟩
  · intro s hs t
    rw [← add_assoc, h₂.eps (s + b₁) (hlt s hs)]
    constructor
    · rintro ⟨t', ht', rfl⟩
      obtain ⟨t'', ht'', rfl⟩ := (h₁.eps s hs t').mp ht'
      exact ⟨t'', ht'', (add_assoc _ _ _).symm⟩
    · rintro ⟨t'', ht'', rfl⟩
      exact ⟨t'' + b₁, (h₁.eps s hs _).mpr ⟨t'', ht'', rfl⟩, add_assoc _ _ _⟩
  · intro s hs
    rw [← add_assoc, h₂.isEnd (s + b₁) (hlt s hs), h₁.isEnd s hs]
  · intro s hs i
    rw [← add_assoc, h₂.endids (s + b₁) (hlt s hs), h₁.endids s hs]

/-- A placed FSM is embedded: it runs inside the larger one as it ran alone. -/
theorem Placed.embeds {q : Fsm} {base : ℕ} (h : Placed x q base) (hx : x.Wf) :
    Embeds x.toNfa q.toNfa {s | s < x.statecount} (· + base) where
  closed _ _ _ _ ht := hx.step_lt ht
  step s hs o t := by
    cases o with
    | none => exact h.eps s hs t
    | some c => exact h.edge s hs c t

/-- The active states of a placed FSM, seen from the larger one. -/
theorem Placed.active_iff {q : Fsm} {base s₀ : ℕ} (h : Placed x q base) (hx : x.Wf)
    (hs₀ : x.start = some s₀) {w : List Byte} {s' : ℕ} :
    Lib.Active q.toNfa {s₀ + base} w s' ↔ ∃ s, x.Active w s ∧ s + base = s' := by
  have hsub : x.toNfa.start ⊆ {s | s < x.statecount} := fun s hs => hx.start_lt hs
  have himage : ({s₀ + base} : Set ℕ) = (· + base) '' x.toNfa.start := by
    rw [Fsm.toNfa_start_eq hs₀, Set.image_singleton]
  rw [himage]
  exact (h.embeds hx).active_iff hsub

/-! ## §3 Both Operands Are Placed -/

theorem statecount_mergeStates (dst src : Fsm) :
    (mergeStates dst src).statecount = dst.statecount + src.statecount := by
  simp [mergeStates, Fsm.statecount]

/-- The states of a merge: those of `dst`, then those of `src` rebased. -/
theorem state_mergeStates (dst src : Fsm) (s : ℕ) :
    (mergeStates dst src).state s =
      if s < dst.statecount then dst.state s
      else (src.state (s - dst.statecount)).rebase dst.statecount := by
  unfold Fsm.state mergeStates
  simp only [getD_eq_getElem?_getD]
  split
  · rename_i h
    rw [getElem?_append_left h]
  · rename_i h
    have hle : dst.states.length ≤ s := Nat.le_of_not_lt h
    rw [getElem?_append_right hle, getElem?_map]
    show _ = FsmState.rebase (Option.getD src.states[s - dst.states.length]? .fresh) _
    cases src.states[s - dst.states.length]? with
    | none => rfl
    | some st => rfl

theorem mergeStates_placed_dst (hdst : dst.Wf) : Placed dst (mergeStates dst src) 0 := by
  have hstate : ∀ s < dst.statecount, (mergeStates dst src).state (s + 0) = dst.state s := by
    intro s hs
    rw [add_zero, state_mergeStates, if_pos hs]
  refine ⟨?_, ?_, ?_, ?_, ?_⟩
  · rw [statecount_mergeStates]
    omega
  · intro s hs c t
    rw [Fsm.Edge, hstate s hs]
    exact exists_eq_right.symm
  · intro s hs t
    rw [Fsm.Eps, hstate s hs]
    exact exists_eq_right.symm
  · intro s hs
    rw [Fsm.IsEnd, hstate s hs, Fsm.IsEnd]
  · intro s hs i
    have hnot : ¬ dst.statecount ≤ s := Nat.not_le_of_lt hs
    show i ∈ (endidCopy dst.endidInfo src.endidInfo dst.statecount).get (s + 0) ↔ _
    rw [add_zero, mem_get_endidCopy hdst.endids_below, if_neg hnot]

theorem mergeStates_placed_src (hdst : dst.Wf) :
    Placed src (mergeStates dst src) dst.statecount := by
  have hstate : ∀ s, (mergeStates dst src).state (s + dst.statecount) =
      (src.state s).rebase dst.statecount := by
    intro s
    have hnot : ¬ s + dst.statecount < dst.statecount := by omega
    rw [state_mergeStates, if_neg hnot, Nat.add_sub_cancel]
  refine ⟨?_, ?_, ?_, ?_, ?_⟩
  · rw [statecount_mergeStates]
    omega
  · intro s _ c t
    rw [Fsm.Edge, hstate s]
    exact hasEdge_edgeSetRebase _ _ c t
  · intro s _ t
    rw [Fsm.Eps, hstate s]
    exact mem_stateSetRebase _ _ t
  · intro s _
    rw [Fsm.IsEnd, hstate s]
    rfl
  · intro s _ i
    show i ∈ (endidCopy dst.endidInfo src.endidInfo dst.statecount).get _ ↔ _
    rw [mem_get_endidCopy hdst.endids_below, if_pos (Nat.le_add_left _ _), Nat.add_sub_cancel]

theorem mergeStates_wf (hdst : dst.Wf) (hsrc : src.Wf) : (mergeStates dst src).Wf where
  start_lt h := absurd h (Option.some_ne_none _).symm
  edge_lt {s c t} h := by
    rw [statecount_mergeStates]
    rw [Fsm.Edge, state_mergeStates] at h
    split at h
    · have := hdst.edge_lt h
      omega
    · obtain ⟨t', ht', rfl⟩ := (hasEdge_edgeSetRebase _ _ c t).mp h
      have := hsrc.edge_lt ht'
      omega
  eps_lt {s t} h := by
    rw [statecount_mergeStates]
    rw [Fsm.Eps, state_mergeStates] at h
    split at h
    · have := hdst.eps_lt h
      omega
    · obtain ⟨t', ht', rfl⟩ := (mem_stateSetRebase _ _ t).mp h
      have := hsrc.eps_lt ht'
      omega
  endids_below := by
    rw [statecount_mergeStates]
    exact below_endidCopy hdst.endids_below hsrc.endids_below
  eager_below := by
    rw [statecount_mergeStates]
    intro s hs
    rw [eq_nil_iff_forall_not_mem]
    intro i hi
    rcases (mem_get_eagerOutputCopy _ _ _ s i).mp hi with h | ⟨-, h⟩
    · rw [hdst.eager_below s (by omega)] at h
      exact not_mem_nil h
    · rw [hsrc.eager_below (s - dst.statecount) (by omega)] at h
      exact not_mem_nil h

/-- The first operand of a merge is placed at `base_a`. -/
theorem mergeOperands_placed_left (ha : a.Wf) (hb : b.Wf) :
    Placed a (mergeOperands a b).1 (mergeOperands a b).2.baseA := by
  unfold mergeOperands
  split
  · exact mergeStates_placed_dst ha
  · exact mergeStates_placed_src hb

/-- The second operand of a merge is placed at `base_b`. -/
theorem mergeOperands_placed_right (ha : a.Wf) (hb : b.Wf) :
    Placed b (mergeOperands a b).1 (mergeOperands a b).2.baseB := by
  unfold mergeOperands
  split
  · exact mergeStates_placed_src ha
  · exact mergeStates_placed_dst hb

theorem mergeOperands_wf (ha : a.Wf) (hb : b.Wf) : (mergeOperands a b).1.Wf := by
  unfold mergeOperands
  split
  · exact mergeStates_wf ha hb
  · exact mergeStates_wf hb ha

theorem statecount_mergeOperands (a b : Fsm) :
    (mergeOperands a b).1.statecount = a.statecount + b.statecount := by
  unfold mergeOperands
  split
  · exact statecount_mergeStates a b
  · rw [statecount_mergeStates, add_comm]

/-- The allocation of a merge: that of the operand that goes first, if the states fit. -/
theorem statealloc_mergeOperands (a b : Fsm) :
    (mergeOperands a b).1.statealloc =
      let dst := if a.size.goesFirst b.size then a.size else b.size
      if dst.alloc < a.statecount + b.statecount then a.statecount + b.statecount
      else dst.alloc := by
  unfold mergeOperands
  by_cases hfirst : a.size.goesFirst b.size = true
  · rw [if_pos hfirst, if_pos hfirst]
    show (if a.statealloc < b.statecount + a.statecount then b.statecount + a.statecount
      else a.statealloc) = _
    rw [add_comm b.statecount a.statecount]
    rfl
  · rw [if_neg hfirst, if_neg hfirst]
    rfl

/-- The two blocks do not overlap: one operand starts where the other ends. -/
theorem mergeOperands_bases (a b : Fsm) :
    ((mergeOperands a b).2.baseA = 0 ∧ (mergeOperands a b).2.baseB = a.statecount) ∨
      ((mergeOperands a b).2.baseA = b.statecount ∧ (mergeOperands a b).2.baseB = 0) := by
  unfold mergeOperands
  split
  · exact .inl ⟨rfl, rfl⟩
  · exact .inr ⟨rfl, rfl⟩

/-! ## §4 The Assertions -/

/-- A table of end IDs does not know of a state without IDs. -/
theorem endidStates_succ {f g : Fsm} (hf : f.Wf) (hinfo : g.endidInfo = f.endidInfo)
    (hcount : g.statecount = f.statecount + 1) : g.endidStates = f.endidStates := by
  have hlast : f.endidInfo.get f.statecount = [] := hf.endids_below _ le_rfl
  rw [Fsm.endidStates, hcount, hinfo, range_succ, countP_append, countP_singleton,
    hlast]
  rfl

theorem endidStates_mergeStates (hdst : dst.Wf) :
    (mergeStates dst src).endidStates = dst.endidStates + src.endidStates := by
  have hempty : ∀ {x : Fsm} {base s : ℕ}, Placed x (mergeStates dst src) base →
      s < x.statecount → ((mergeStates dst src).endidInfo.get (s + base)).isEmpty =
        (x.endidInfo.get s).isEmpty := by
    intro x base s h hs
    rw [Bool.eq_iff_iff, List.isEmpty_iff, List.isEmpty_iff, List.eq_nil_iff_forall_not_mem,
      eq_nil_iff_forall_not_mem]
    simp only [h.endids s hs]
  rw [Fsm.endidStates, statecount_mergeStates, range_add, countP_append,
    countP_map]
  congr 1
  · refine countP_congr fun s hs => ?_
    rw [← hempty (mergeStates_placed_dst hdst) (mem_range.mp hs), add_zero]
  · refine countP_congr fun s hs => ?_
    rw [← hempty (mergeStates_placed_src hdst) (mem_range.mp hs), add_comm]
    rfl

/-- The capture actions of `src` are about its states, and the table of `dst` has room for the
states of `src` that have end IDs. -/
def CopyFits (dst src : StoredFsm) : Prop :=
  src.captureInfo.Below src.statecount ∧ dst.counters.Room src.endidStates

instance (dst src : StoredFsm) : Decidable (CopyFits dst src) :=
  inferInstanceAs (Decidable (src.captureInfo.Below src.statecount ∧ (_ ∨ _ ∧ _)))

theorem merge_cases {dst : StoredFsm} (hdst : dst.Valid) (src : StoredFsm) :
    (¬ CopyFits dst src ∧ merge dst src = none) ∨
      (CopyFits dst src ∧ ∃ q, merge dst src = some q ∧
        q.toFsm = mergeStates dst.toFsm src.toFsm ∧ q.counters.Valid) := by
  have hroom := hdst.counters.newBuckets_isSome_iff src.endidStates
  unfold merge
  by_cases hbelow : src.captureInfo.Below src.statecount
  · rw [if_pos hbelow]
    cases hc : EndidCounters.newBuckets src.endidStates dst.counters with
    | none =>
      refine .inl ⟨fun h => ?_, rfl⟩
      rw [hc] at hroom
      exact absurd (hroom.mpr h.2) (by simp)
    | some c =>
      obtain ⟨hvalid, hocc⟩ := hdst.counters.newBuckets hc
      refine .inr ⟨⟨hbelow, hroom.mp (by rw [hc]; rfl)⟩, _, rfl, rfl, ?_⟩
      have hsum : dst.endidStates + src.endidStates = c.occupied := hocc.symm
      rwa [StoredFsm.counters, endidStates_mergeStates hdst.wf, hsum]
  · exact .inl ⟨fun h => hbelow h.1, if_neg hbelow⟩

/-- What `fsm_merge` needs of its operands. -/
def Mergeable (a b : StoredFsm) : Prop :=
  if a.size.goesFirst b.size then CopyFits a b else CopyFits b a

instance (a b : StoredFsm) : Decidable (Mergeable a b) :=
  inferInstanceAs (Decidable (if a.size.goesFirst b.size then CopyFits a b else CopyFits b a))

/-- **When a merge goes through**, and what it gives then. -/
theorem fsmMerge_cases {a b : StoredFsm} (ha : a.Valid) (hb : b.Valid) :
    (¬ Mergeable a b ∧ fsmMerge a b = none) ∨
      (Mergeable a b ∧ ∃ q, fsmMerge a b = some (q, (mergeOperands a.toFsm b.toFsm).2) ∧
        q.toFsm = (mergeOperands a.toFsm b.toFsm).1 ∧ q.counters.Valid) := by
  unfold Mergeable fsmMerge mergeOperands
  by_cases hfirst : a.size.goesFirst b.size = true
  · simp only [hfirst, if_true]
    rcases merge_cases ha b with ⟨hnot, hnone⟩ | ⟨hfits, q, hq, hstates, hcounters⟩
    · exact .inl ⟨hnot, by rw [hnone]; rfl⟩
    · exact .inr ⟨hfits, q, by rw [hq]; rfl, hstates, hcounters⟩
  · simp only [hfirst]
    rcases merge_cases hb a with ⟨hnot, hnone⟩ | ⟨hfits, q, hq, hstates, hcounters⟩
    · exact .inl ⟨hnot, by rw [hnone]; rfl⟩
    · exact .inr ⟨hfits, q, by rw [hq]; rfl, hstates, hcounters⟩

end Libfsm
