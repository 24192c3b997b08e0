import Libfsm.Ops.Merge

/-!
# Union

`fsm_union` merges two FSMs and adds a start state with epsilon edges to both start
states.  `fsm_union_array` folds it over an array and reports, for each operand, the offset
at which its states ended up.

- `fsmUnion`, `fsmUnionArray`: the functions, with the bookkeeping of `bases`
- `unionOffsets`: where the operands' states really are, from the sizes alone
- `UnionsFit`: no assertion of a merge fails along the array
- `fsmUnionArrayLoop_placed`: every operand is placed at its offset, and the language of the
  result is the union of the languages
- `ShiftsKept`: whenever an operand takes the first place it has a capture.  The bases of
  earlier operands are shifted only when the *capture* base moves, so this is exactly when
  the reported bases are the offsets.
- `fsmUnionArray_bases_iff`: when all of this goes well
-/

namespace Libfsm

open Lib
open List hiding nil cons

variable {m q x : Fsm} {res : StoredFsm} {sa sb : ℕ} {offsets : List ℕ}

/-! ## §1 The Functions -/

/-- What `fsm_union` adds to the merged FSM: a start state with epsilon edges to `sa` and `sb`. -/
def unionStart (q : Fsm) (sa sb : ℕ) : Fsm :=
  let (sq, q) := fsmAddstate q
  let q := fsmSetstart q sq
  let q := if sq ≠ sa then fsmAddedgeEpsilon q sq sa else q
  if sq ≠ sb then fsmAddedgeEpsilon q sq sb else q

def fsmUnion (a b : StoredFsm) : Option (StoredFsm × CombineInfo) :=
  if a.statecount = 0 then some (b, {})
  else if b.statecount = 0 then some (a, {})
  else
    match fsmGetstart a.toFsm, fsmGetstart b.toFsm with
    | some sa, some sb =>
      (fsmMerge a b).map fun (q, ci) =>
        ({ q with toFsm := unionStart q.toFsm (sa + ci.baseA) (sb + ci.baseB) }, ci)
    | _, _ => none

/-- `struct fsm_combined_base_pair` -/
structure BasePair where
  state : ℕ := 0
  capture : ℕ := 0
  deriving DecidableEq, Repr

/-- The update of `bases` in `fsm_union_array`: record the new operand, and shift the
earlier ones if the capture base of the accumulated FSM moved. -/
def unionArrayBases (bases : List BasePair) (ci : CombineInfo) : List BasePair :=
  let shifted :=
    if ci.captureBaseA > 0 then
      bases.map fun b => ⟨b.state + ci.baseA, b.capture + ci.captureBaseA⟩
    else bases
  shifted ++ [⟨ci.baseB, ci.captureBaseB⟩]

/-- The loop of `fsm_union_array`. -/
def fsmUnionArrayLoop (res : StoredFsm) (bases : List BasePair) :
    List StoredFsm → Option (StoredFsm × List BasePair)
  | [] => some (res, bases)
  | x :: xs =>
    match fsmUnion res x with
    | none => none
    | some (combined, ci) => fsmUnionArrayLoop combined (unionArrayBases bases ci) xs

/-- `fsm_union_array`, on an array with at least one element. -/
def fsmUnionArray (f : StoredFsm) (fs : List StoredFsm) : Option (StoredFsm × List BasePair) :=
  fsmUnionArrayLoop f [{}] fs

/-! ## §2 One Union -/

/-- What a union adds to the merged FSM: a start state with two epsilon edges. -/
structure Joined (m q : Fsm) (sa sb : ℕ) : Prop where
  statecount : q.statecount = m.statecount + 1
  statealloc : q.statealloc =
    if m.statecount = m.statealloc then 2 * m.statealloc else m.statealloc
  start : q.start = some m.statecount
  edge : ∀ s c t, q.Edge s c t ↔ m.Edge s c t
  eps : ∀ s t, q.Eps s t ↔ m.Eps s t ∨ (s = m.statecount ∧ (t = sa ∨ t = sb))
  isEnd : ∀ s, q.IsEnd s ↔ m.IsEnd s
  endidInfo : q.endidInfo = m.endidInfo
  eagerOutputInfo : q.eagerOutputInfo = m.eagerOutputInfo

/-- The join of a merged FSM, with start states that are among its states. -/
theorem joined_unionStart (hsa : sa < m.statecount) (hsb : sb < m.statecount) :
    Joined m (unionStart m sa sb) sa sb := by
  have hunion : unionStart m sa sb = fsmAddedgeEpsilon (fsmAddedgeEpsilon
      (fsmSetstart (fsmAddstate m).2 m.statecount) m.statecount sa) m.statecount sb := by
    simp only [unionStart, fst_fsmAddstate, ne_eq, hsa.ne', hsb.ne', not_false_eq_true, if_true]
  rw [hunion]
  have hcount : (fsmSetstart (fsmAddstate m).2 m.statecount).statecount = m.statecount + 1 :=
    statecount_fsmAddstate m
  have hstate : ∀ t, (fsmSetstart (fsmAddstate m).2 m.statecount).state t = m.state t :=
    state_fsmAddstate m
  have hnew : m.statecount < (fsmSetstart (fsmAddstate m).2 m.statecount).statecount :=
    hcount ▸ Nat.lt_succ_self _
  have hnew' : m.statecount < (fsmAddedgeEpsilon
      (fsmSetstart (fsmAddstate m).2 m.statecount) m.statecount sa).statecount := by
    rwa [fsmAddedgeEpsilon, Fsm.statecount_modifyState]
  refine ⟨?_, rfl, rfl, fun s c t => ?_, fun s t => ?_, fun s => ?_, rfl, rfl⟩
  · unfold fsmAddedgeEpsilon
    rw [Fsm.statecount_modifyState, Fsm.statecount_modifyState, hcount]
  · rw [edge_fsmAddedgeEpsilon, edge_fsmAddedgeEpsilon, Fsm.Edge, hstate, Fsm.Edge]
  · rw [eps_fsmAddedgeEpsilon hnew', eps_fsmAddedgeEpsilon hnew, or_assoc, ← and_or_left, Fsm.Eps,
      hstate, Fsm.Eps]
  · refine Iff.trans (Fsm.isEnd_modifyState fun _ => rfl) ?_
    refine Iff.trans (Fsm.isEnd_modifyState fun _ => rfl) ?_
    rw [Fsm.IsEnd, hstate, Fsm.IsEnd]

theorem Joined.wf (h : Joined m q sa sb) (hm : m.Wf) (hsa : sa < m.statecount)
    (hsb : sb < m.statecount) : q.Wf where
  start_lt hs := by
    rw [h.start] at hs
    rw [h.statecount, ← Option.some.inj hs]
    exact Nat.lt_succ_self _
  edge_lt he := by
    rw [h.statecount]
    exact Nat.lt_succ_of_lt (hm.edge_lt ((h.edge _ _ _).mp he))
  eps_lt {s t} he := by
    rw [h.statecount]
    rcases (h.eps s t).mp he with he | ⟨-, rfl | rfl⟩
    · exact Nat.lt_succ_of_lt (hm.eps_lt he)
    · exact Nat.lt_succ_of_lt hsa
    · exact Nat.lt_succ_of_lt hsb
  endids_below := by
    rw [h.statecount, h.endidInfo]
    exact fun s hs => hm.endids_below s (by omega)
  eager_below := by
    rw [h.statecount, h.eagerOutputInfo]
    exact fun s hs => hm.eager_below s (by omega)

/-- What was placed in the merged FSM is placed in the join, at the same offset. -/
theorem Joined.placed {base : ℕ} (h : Joined m q sa sb) (hx : Placed x m base) :
    Placed x q base := by
  have hne : ∀ s < x.statecount, s + base ≠ m.statecount := by
    have := hx.le
    omega
  refine ⟨?_, ?_, ?_, ?_, ?_⟩
  · rw [h.statecount]
    exact Nat.le_succ_of_le hx.le
  · intro s hs c t
    rw [h.edge, hx.edge s hs]
  · intro s hs t
    rw [h.eps, hx.eps s hs]
    exact ⟨fun h => h.elim (fun h => h) (fun h => absurd h.1 (hne s hs)), .inl⟩
  · intro s hs
    rw [h.isEnd, hx.isEnd s hs]
  · intro s hs i
    rw [h.endidInfo, hx.endids s hs]

/-- A run of the join stays at the new start state or goes on from one of the two. -/
theorem Joined.active_iff (h : Joined m q sa sb) {w : List Byte} {s : ℕ} :
    q.Active w s ↔
      (w = [] ∧ s = m.statecount) ∨
        Lib.Active q.toNfa {sa} w s ∨ Lib.Active q.toNfa {sb} w s := by
  have hstart : q.toNfa.start = {m.statecount} := Fsm.toNfa_start_eq h.start
  constructor
  · intro ha
    unfold Fsm.Active at ha
    rw [hstart] at ha
    induction ha with
    | base hs => exact .inl ⟨rfl, hs⟩
    | @eps w s t _ ht ih =>
      rcases ih with ⟨rfl, rfl⟩ | ih | ih
      · -- leaving the new start state
        rcases (h.eps _ t).mp ht with ht | ⟨-, rfl | rfl⟩
        · exact absurd ht.source_lt (lt_irrefl _)
        · exact .inr (.inl (Active.base rfl))
        · exact .inr (.inr (Active.base rfl))
      · exact .inr (.inl (Active.eps ih ht))
      · exact .inr (.inr (Active.eps ih ht))
    | @symbol w c s t _ ht ih =>
      rcases ih with ⟨rfl, rfl⟩ | ih | ih
      · exact absurd ((h.edge _ c t).mp ht).source_lt (lt_irrefl _)
      · exact .inr (.inl (Active.symbol ih ht))
      · exact .inr (.inr (Active.symbol ih ht))
  · have henter : ∀ t, t = sa ∨ t = sb → q.Active [] t := by
      intro t ht
      exact Active.eps (Active.base h.start) ((h.eps _ t).mpr (.inr ⟨rfl, ht⟩))
    rintro (⟨rfl, rfl⟩ | ha | ha)
    · exact Active.base h.start
    · exact (henter sa (.inl rfl)).append ha
    · exact (henter sb (.inr rfl)).append ha

/-- The join accepts what one of the operands accepts. -/
theorem Joined.mem_language_iff {a b : Fsm} {baseA baseB : ℕ}
    (h : Joined m q (sa + baseA) (sb + baseB)) (ha : a.Wf) (hb : b.Wf) (hpa : Placed a m baseA)
    (hpb : Placed b m baseB) (hsa : a.start = some sa) (hsb : b.start = some sb) {w : List Byte} :
    w ∈ q.language ↔ w ∈ a.language ∨ w ∈ b.language := by
  have hqa := h.placed hpa
  have hqb := h.placed hpb
  rw [Fsm.mem_language_iff]
  constructor
  · rintro ⟨s', hs', hend⟩
    rcases h.active_iff.mp hs' with ⟨-, rfl⟩ | hs' | hs'
    · -- the new start state is not an end state
      rw [h.isEnd] at hend
      exact absurd hend.lt (lt_irrefl _)
    · obtain ⟨s, hs, rfl⟩ := (hqa.active_iff ha hsa).mp hs'
      rw [hqa.isEnd s (ha.active_lt hs)] at hend
      exact .inl (Fsm.mem_language_iff.mpr ⟨s, hs, hend⟩)
    · obtain ⟨s, hs, rfl⟩ := (hqb.active_iff hb hsb).mp hs'
      rw [hqb.isEnd s (hb.active_lt hs)] at hend
      exact .inr (Fsm.mem_language_iff.mpr ⟨s, hs, hend⟩)
  · rintro (hw | hw)
    · obtain ⟨s, hs, hend⟩ := Fsm.mem_language_iff.mp hw
      have hs' := (hqa.active_iff ha hsa).mpr ⟨s, hs, rfl⟩
      exact ⟨s + baseA, h.active_iff.mpr (.inr (.inl hs')),
        (hqa.isEnd s (ha.active_lt hs)).mpr hend⟩
    · obtain ⟨s, hs, hend⟩ := Fsm.mem_language_iff.mp hw
      have hs' := (hqb.active_iff hb hsb).mpr ⟨s, hs, rfl⟩
      exact ⟨s + baseB, h.active_iff.mpr (.inr (.inr hs')),
        (hqb.isEnd s (hb.active_lt hs)).mpr hend⟩

/-- The size after a union, from the sizes of the operands. -/
def Size.union (a b : Size) : Size :=
  let dst := if a.goesFirst b then a else b
  let alloc := if dst.alloc < a.count + b.count then a.count + b.count else dst.alloc
  ⟨if a.count + b.count = alloc then 2 * alloc else alloc, a.count + b.count + 1⟩

/-- **One union.**  On well-formed operands with start states it succeeds unless an assertion of
the merge fails; then both operands are placed at the reported bases, and the result is well
formed, has a start state and the size computed by `Size.union`, and accepts the union of the
languages. -/
theorem fsmUnion_cases {a b : StoredFsm} (ha : a.Valid) (hb : b.Valid)
    (hsa : a.start.isSome = true) (hsb : b.start.isSome = true) :
    (¬ Mergeable a b ∧ fsmUnion a b = none) ∨
      (Mergeable a b ∧ ∃ q, fsmUnion a b = some (q, (mergeOperands a.toFsm b.toFsm).2) ∧
        q.Valid ∧ q.start.isSome = true ∧ q.size = a.size.union b.size ∧
        Placed a.toFsm q.toFsm (mergeOperands a.toFsm b.toFsm).2.baseA ∧
        Placed b.toFsm q.toFsm (mergeOperands a.toFsm b.toFsm).2.baseB ∧
        ∀ w, w ∈ q.language ↔ w ∈ a.language ∨ w ∈ b.language) := by
  obtain ⟨sa, hsa⟩ := Option.isSome_iff_exists.mp hsa
  obtain ⟨sb, hsb⟩ := Option.isSome_iff_exists.mp hsb
  have hla := ha.wf.start_lt hsa
  have hlb := hb.wf.start_lt hsb
  have hpa := mergeOperands_placed_left ha.wf hb.wf
  have hpb := mergeOperands_placed_right ha.wf hb.wf
  have hunion : fsmUnion a b = (fsmMerge a b).map fun (q, ci) =>
      ({ q with toFsm := unionStart q.toFsm (sa + ci.baseA) (sb + ci.baseB) }, ci) := by
    have ha0 : a.statecount ≠ 0 := by omega
    have hb0 : b.statecount ≠ 0 := by omega
    simp only [fsmUnion, ha0, hb0, if_false, fsmGetstart, hsa, hsb]
  rcases fsmMerge_cases ha hb with ⟨hnot, hnone⟩ | ⟨hfits, q, hq, hstates, hcounters⟩
  · exact .inl ⟨hnot, by rw [hunion, hnone]; rfl⟩
  have hj := joined_unionStart ((add_lt_add_left hla _).trans_le hpa.le)
    ((add_lt_add_left hlb _).trans_le hpb.le)
  have hmwf := mergeOperands_wf ha.wf hb.wf
  have hwf := hj.wf hmwf (by have := hpa.le; omega) (by have := hpb.le; omega)
  refine .inr ⟨hfits, _, by rw [hunion, hq]; rfl, ?_⟩
  dsimp only
  rw [hstates]
  refine ⟨⟨hwf, ?_⟩, by rw [hj.start]; rfl, ?_, hj.placed hpa, hj.placed hpb, ?_⟩
  · -- the new state has no end IDs
    have heq := endidStates_succ hmwf hj.endidInfo hj.statecount
    rw [← hstates] at heq
    rw [StoredFsm.counters] at hcounters ⊢
    dsimp only
    rwa [← hstates, heq]
  · -- the allocation grows in the merge and once more for the new state
    rw [Fsm.size, hj.statecount, hj.statealloc, statecount_mergeOperands, statealloc_mergeOperands]
    rfl
  · exact fun w => hj.mem_language_iff ha.wf hb.wf hpa hpb hsa hsb

/-! ## §3 Folding Over An Array -/

/-- Where the operands' states are after each union, from the sizes alone: an operand that
goes first pushes everything before it up by its number of states. -/
def unionOffsets (acc : Size) (offsets : List ℕ) : List Fsm → List ℕ
  | [] => offsets
  | x :: xs =>
    unionOffsets (acc.union x.size)
      (if acc.goesFirst x.size then offsets ++ [acc.count]
        else offsets.map (· + x.statecount) ++ [0])
      xs

/-- Whenever an operand goes first, it has a capture. -/
def ShiftsKept (acc : Size) : List Fsm → Prop
  | [] => True
  | x :: xs =>
    (acc.goesFirst x.size = true ∨ 0 < x.captureInfo.count) ∧
      ShiftsKept (acc.union x.size) xs

instance decidableShiftsKept : (acc : Size) → (fs : List Fsm) → Decidable (ShiftsKept acc fs)
  | _, [] => isTrue trivial
  | acc, x :: xs =>
    have := decidableShiftsKept (acc.union x.size) xs
    inferInstanceAs (Decidable ((acc.goesFirst x.size = true ∨ 0 < x.captureInfo.count) ∧
      ShiftsKept (acc.union x.size) xs))

/-- The offsets are those of the operands' states in `res`. -/
def AllPlaced (res : Fsm) (xs : List Fsm) (offsets : List ℕ) : Prop :=
  Forall₂ (fun x off => Placed x res off) xs offsets

/-- The base reported by `fsm_merge` in the two cases. -/
theorem mergeOperands_info (a b : Fsm) :
    (mergeOperands a b).2 =
      if a.size.goesFirst b.size then
        { baseB := a.statecount, captureBaseB := a.captureInfo.count }
      else { baseA := b.statecount, captureBaseA := b.captureInfo.count } := by
  unfold mergeOperands
  split <;> rfl

/-- One iteration keeps every earlier operand placed, and places the new one. -/
theorem AllPlaced.step {res : Fsm} {xs : List Fsm} (h : AllPlaced res xs offsets)
    (hres : Placed res q (mergeOperands res x).2.baseA)
    (hx : Placed x q (mergeOperands res x).2.baseB) :
    AllPlaced q (xs ++ [x])
      (if res.size.goesFirst x.size then offsets ++ [res.statecount]
        else offsets.map (· + x.statecount) ++ [0]) := by
  rw [mergeOperands_info] at hres hx
  split
  · rename_i hfirst
    rw [if_pos hfirst] at hres hx
    refine List.rel_append (List.Forall₂.imp ?_ h) (List.Forall₂.cons hx List.Forall₂.nil)
    intro y off hy
    exact hy.trans hres
  · rename_i hfirst
    rw [if_neg hfirst] at hres hx
    refine List.rel_append ?_ (List.Forall₂.cons hx List.Forall₂.nil)
    refine List.forall₂_map_right_iff.mpr (List.Forall₂.imp ?_ h)
    intro y off hy
    exact hy.trans hres

/-! ## §4 The Reported Bases -/

variable {bases : List BasePair}

/-- The reported bases never exceed the offsets: a shift can be missed, not invented. -/
def BasesLe (bases : List BasePair) (offsets : List ℕ) : Prop :=
  Forall₂ (fun b off => b.state ≤ off) bases offsets

/-- The reported bases are the offsets. -/
def BasesEq (bases : List BasePair) (offsets : List ℕ) : Prop :=
  bases.map BasePair.state = offsets

/-- A missed shift of a positive amount cannot be hidden. -/
private theorem not_basesEq_map_add {n : ℕ} (hle : BasesLe bases offsets) (hne : offsets ≠ [])
    (hn : 0 < n) : ¬ BasesEq bases (offsets.map (· + n)) := by
  intro h
  cases hle with
  | nil => exact hne rfl
  | @cons b off _ _ hb _ =>
    have hhead : b.state = off + n := (List.cons.inj h).1
    omega

/-- **Step lemma for the bases**: after an iteration they are the offsets exactly when they
were before and no shift was missed. -/
theorem unionArrayBases_eq_iff {res : Fsm} (hle : BasesLe bases offsets) (hne : offsets ≠ [])
    (hx : 0 < x.statecount) :
    BasesEq (unionArrayBases bases (mergeOperands res x).2)
        (if res.size.goesFirst x.size then offsets ++ [res.statecount]
          else offsets.map (· + x.statecount) ++ [0]) ↔
      BasesEq bases offsets ∧
        (res.size.goesFirst x.size = true ∨ 0 < x.captureInfo.count) := by
  rw [mergeOperands_info]
  unfold BasesEq unionArrayBases
  by_cases hfirst : res.size.goesFirst x.size = true
  · simp [hfirst]
  · simp only [hfirst, Bool.false_eq_true, if_false, false_or]
    by_cases hcap : 0 < x.captureInfo.count
    · -- the capture base moved, so the state bases were shifted along with it
      have hmap : (bases.map fun b => BasePair.mk (b.state + x.statecount)
          (b.capture + x.captureInfo.count)).map BasePair.state =
          (bases.map BasePair.state).map (· + x.statecount) := by
        simp
      rw [if_pos hcap, map_append, hmap, map_singleton, append_cancel_right_eq]
      have hinj : Function.Injective (fun k : ℕ => k + x.statecount) :=
        fun _ _ h => Nat.add_right_cancel h
      rw [(map_injective_iff.mpr hinj).eq_iff]
      simp [hcap]
    · rw [map_append, map_singleton, append_cancel_right_eq]
      simp only [hcap, and_false, iff_false]
      exact not_basesEq_map_add hle hne hx

/-- Helper: an iteration keeps the reported bases at or below the offsets. -/
private theorem unionArrayBases_le {res : Fsm} (hle : BasesLe bases offsets) :
    BasesLe (unionArrayBases bases (mergeOperands res x).2)
      (if res.size.goesFirst x.size then offsets ++ [res.statecount]
        else offsets.map (· + x.statecount) ++ [0]) := by
  rw [mergeOperands_info]
  split
  · refine List.rel_append ?_ (List.Forall₂.cons (le_refl _) List.Forall₂.nil)
    exact hle
  · refine List.rel_append ?_ (List.Forall₂.cons (le_refl _) List.Forall₂.nil)
    split
    · refine List.forall₂_map_left_iff.mpr (List.forall₂_map_right_iff.mpr (hle.imp ?_))
      exact fun b off h => Nat.add_le_add_right h _
    · refine List.forall₂_map_right_iff.mpr (hle.imp ?_)
      exact fun b off h => Nat.le_add_right_of_le h

/-- No assertion fails in any of the unions. -/
def UnionsFit (res : StoredFsm) : List StoredFsm → Prop
  | [] => True
  | x :: xs => Mergeable res x ∧ ∀ r ∈ fsmUnion res x, UnionsFit r.1 xs

instance decidableUnionsFit :
    (res : StoredFsm) → (fs : List StoredFsm) → Decidable (UnionsFit res fs)
  | _, [] => isTrue trivial
  | res, x :: xs =>
    have := fun r : StoredFsm × CombineInfo => decidableUnionsFit r.1 xs
    inferInstanceAs (Decidable (Mergeable res x ∧ ∀ r ∈ fsmUnion res x, UnionsFit r.1 xs))

/-- **Run lemma for the loop.**  It places every operand at its offset, gives an FSM for the union
of the languages and reports the offsets exactly if no assertion fails, the bases so far are the
offsets, and every shift is kept. -/
theorem fsmUnionArrayLoop_iff {done : List Fsm} {todo : List StoredFsm} (hres : res.Valid)
    (hstart : res.start.isSome = true) (hvalid : ∀ x ∈ todo, x.Valid)
    (hstarts : ∀ x ∈ todo, x.start.isSome = true) (hplaced : AllPlaced res.toFsm done offsets)
    (hlang : ∀ w, w ∈ res.language ↔ ∃ x ∈ done, w ∈ x.language) (hle : BasesLe bases offsets)
    (hne : offsets ≠ []) :
    (∃ q bases', fsmUnionArrayLoop res bases todo = some (q, bases') ∧
        (∀ w, w ∈ q.language ↔ ∃ x ∈ done ++ todo.map StoredFsm.toFsm, w ∈ x.language) ∧
        AllPlaced q.toFsm (done ++ todo.map StoredFsm.toFsm)
          (unionOffsets res.size offsets (todo.map StoredFsm.toFsm)) ∧
        BasesEq bases' (unionOffsets res.size offsets (todo.map StoredFsm.toFsm))) ↔
      UnionsFit res todo ∧ BasesEq bases offsets ∧
        ShiftsKept res.size (todo.map StoredFsm.toFsm) := by
  induction todo generalizing res bases done offsets with
  | nil => simp [fsmUnionArrayLoop, unionOffsets, UnionsFit, ShiftsKept, hplaced, hlang]
  | cons x xs ih =>
    have hx := hvalid x mem_cons_self
    have hxstart := hstarts x mem_cons_self
    rcases fsmUnion_cases hres hx hstart hxstart with
      ⟨hnot, hnone⟩ | ⟨hfits, q, hq, hqvalid, hqstart, hsize, hpres, hpx, hqlang⟩
    · refine iff_of_false ?_ fun h => hnot h.1.1
      rintro ⟨q, bases', hloop, -⟩
      rw [fsmUnionArrayLoop, hnone] at hloop
      cases hloop
    have hlang' : ∀ w, w ∈ q.language ↔ ∃ y ∈ done ++ [x.toFsm], w ∈ y.language := by
      intro w
      rw [hqlang, hlang]
      simp only [List.mem_append, List.mem_singleton, or_and_right, exists_or, exists_eq_left]
    have hne' : (if res.size.goesFirst x.size then offsets ++ [res.statecount]
        else offsets.map (· + x.statecount) ++ [0]) ≠ [] := by
      split <;> simp
    -- the other operands are united with what this one gives
    have hrec := ih hqvalid hqstart (fun y hy => hvalid y (List.mem_cons_of_mem x hy))
      (fun y hy => hstarts y (List.mem_cons_of_mem x hy)) (hplaced.step hpres hpx) hlang'
      (unionArrayBases_le hle) hne'
    obtain ⟨s, hs⟩ := Option.isSome_iff_exists.mp hxstart
    rw [unionArrayBases_eq_iff hle hne (Nat.zero_lt_of_lt (hx.wf.start_lt hs)), hsize,
      append_assoc, and_assoc] at hrec
    have hfit : UnionsFit res (x :: xs) ↔ UnionsFit q xs := by
      refine ⟨fun h => h.2 _ hq, fun h => ⟨hfits, fun r hr => ?_⟩⟩
      cases hq.symm.trans hr
      exact h
    rw [hfit, fsmUnionArrayLoop, hq]
    exact hrec

/-- One state, which is the start and an end: accepts the empty string. -/
def unionOneState : StoredFsm :=
  ⟨fsmSetstart (fsmSetend (fsmAddstateBulk fsmNew 1) 0 true) 0, 4, 0⟩

/-- Two states of the same allocation as `unionOneState`, so that it goes first. -/
def unionTwoStates : StoredFsm :=
  ⟨fsmSetstart (fsmSetend (fsmAddedgeLiteral (fsmAddstateBulk fsmNew 2) 0 1 97) 1 true) 0, 4, 0⟩

/-- One state with an end ID. -/
def unionEndId : StoredFsm :=
  ⟨{ unionOneState.toFsm with endidInfo := endidSet ∅ 0 7 }, 4, 1⟩

/-- Five states, so that it goes before what the others make, with a capture. -/
def unionCapture : StoredFsm :=
  ⟨{ fsmSetstart (fsmSetend (fsmAddstateBulk fsmNew 5) 4 true) 3 with
      captureInfo := { buckets := [⟨3, .start, 0, none⟩] } }, 4, 0⟩

end Libfsm
