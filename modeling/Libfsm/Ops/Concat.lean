import Libfsm.Ops.Merge

/-!
# Concatenation

`fsm_concat` links the end states of one FSM to the start state of another.  When the first
operand has several end states they are first collated: a new state gets an epsilon edge
from each of them.

- `fsmCollate`: the collation, with its three cases
- `fsmConcat`: the concatenation
- `language_of_one_end`, `language_of_many_ends`: the language of the result in the two cases.
  After a collation the old end states keep their end marks, so the language of the first
  operand is accepted as well.
- `ConcatFits`: no assertion of the merge fails
- `fsmConcat_language_eq_mul_iff`: when the result is the concatenation of the languages
-/

namespace Libfsm

open Lib
open List hiding nil cons

variable {a b f m : Fsm} {w : List Byte} {ea sb sq : ℕ}

/-! ## §1 The Functions -/

/-- One iteration of the loop of `fsm_collate`. -/
def fsmCollateStep (predicate : Fsm → ℕ → Bool) (new : ℕ) (f : Fsm) (i : ℕ) : Fsm :=
  if i = new then f
  else if predicate f i then fsmAddedgeEpsilon f i new
  else f

/-- `fsm_collate`: one state standing for all states with the predicate. -/
def fsmCollate (f : Fsm) (predicate : Fsm → ℕ → Bool) : Option (ℕ × Fsm) :=
  match fsmCount f predicate with
  | 0 => none
  | 1 => ((range f.statecount).find? (predicate f)).map fun i => (i, f)
  | _ =>
    let (new, g) := fsmAddstate f
    some (new, (range g.statecount).foldl (fsmCollateStep predicate new) g)

/-- The part of `fsm_concat` after the merge: link the end state `ea` of the first operand to the
start state `sb` of the second. -/
def linkEnds (q : Fsm) (ci : CombineInfo) (ea sq sb : ℕ) : Fsm :=
  let q := fsmSetend q (ea + ci.baseA) false
  let q := fsmAddedgeEpsilon q (ea + ci.baseA) (sb + ci.baseB)
  fsmSetstart q (sq + ci.baseA)

/-- The part of `fsm_concat` after the collation. -/
def fsmConcatLink (a b : StoredFsm) (ea sq sb : ℕ) : Option (StoredFsm × CombineInfo) :=
  (fsmMerge { a with toFsm := fsmSetend a.toFsm ea true } b).map fun (q, ci) =>
    ({ q with toFsm := linkEnds q.toFsm ci ea sq sb }, ci)

def fsmConcat (a b : StoredFsm) : Option (StoredFsm × CombineInfo) :=
  -- when one operand has no states the other is returned as it is
  if a.statecount = 0 then some (b, {})
  else if b.statecount = 0 then some (a, {})
  else if !fsmHas a.toFsm fsmIsend then none
  else
    match fsmGetstart a.toFsm, fsmGetstart b.toFsm with
    | some sq, some sb =>
      match fsmCollate a.toFsm fsmIsend with
      | none => none
      | some (ea, g) => fsmConcatLink { a with toFsm := g } b ea sq sb
    | _, _ => none

/-- What linking makes of the operands, when no assertion fails. -/
def linkOperands (a b : Fsm) (ea sq sb : ℕ) : Fsm :=
  let (q, ci) := mergeOperands (fsmSetend a ea true) b
  linkEnds q ci ea sq sb

/-! ## §2 Collating End States -/

/-- The loop of `fsm_collate` rewrites each state by itself. -/
private theorem foldl_fsmCollateStep (f : Fsm) (l : List ℕ) (new : ℕ) :
    l.foldl (fsmCollateStep fsmIsend new) f =
      f.modifyAll l fun i st =>
        if i = new then st
        else if st.isEnd then { st with epsilons := stateSetAdd st.epsilons new }
        else st := by
  congr 1
  funext g i
  unfold fsmCollateStep fsmAddedgeEpsilon fsmIsend
  by_cases hi : i = new
  · rw [if_pos hi]
    exact (Fsm.modifyState_eq_self (by simp [hi])).symm
  · rw [if_neg hi]
    by_cases hend : (g.state i).isEnd = true
    · rw [if_pos hend]
      exact Fsm.modifyState_congr (by simp [hi, hend])
    · rw [if_neg hend]
      exact (Fsm.modifyState_eq_self (by simp [hi, hend])).symm

/-- What a collation of several end states leaves behind: a new state without edges, an
epsilon edge to it from each end state, and everything else as it was. -/
structure Collated (f g : Fsm) : Prop where
  statecount : g.statecount = f.statecount + 1
  start : g.start = f.start
  edge : ∀ s c t, g.Edge s c t ↔ f.Edge s c t
  eps : ∀ s t, g.Eps s t ↔ f.Eps s t ∨ (f.IsEnd s ∧ t = f.statecount)
  isEnd : ∀ s, g.IsEnd s ↔ f.IsEnd s
  endidInfo : g.endidInfo = f.endidInfo
  eagerOutputInfo : g.eagerOutputInfo = f.eagerOutputInfo

/-- The collation loop, run after the new state was added. -/
theorem collated_foldl (f : Fsm) :
    Collated f ((range (fsmAddstate f).2.statecount).foldl
      (fsmCollateStep fsmIsend f.statecount) (fsmAddstate f).2) := by
  rw [foldl_fsmCollateStep]
  -- each state is rewritten at most once, by a function of itself alone
  have hstate : ∀ s, (Fsm.modifyAll (fsmAddstate f).2
      (range (fsmAddstate f).2.statecount) fun i st =>
        if i = f.statecount then st
        else if st.isEnd then { st with epsilons := stateSetAdd st.epsilons f.statecount }
        else st).state s =
      if (f.state s).isEnd then
        { f.state s with epsilons := stateSetAdd (f.state s).epsilons f.statecount }
      else f.state s := by
    intro s
    rw [Fsm.state_modifyAll _ nodup_range, state_fsmAddstate, statecount_fsmAddstate]
    simp only [mem_range, and_self]
    by_cases hend : (f.state s).isEnd = true
    · have hlt : s < f.statecount := Fsm.IsEnd.lt hend
      rw [if_pos (by omega), if_neg (by omega)]
    · simp [hend]
  refine ⟨?_, ?_, ?_, ?_, ?_, ?_, ?_⟩
  · rw [Fsm.statecount_modifyAll, statecount_fsmAddstate]
  · rw [Fsm.start_modifyAll, start_fsmAddstate]
  · intro s c t
    rw [Fsm.Edge, hstate]
    split <;> rfl
  · intro s t
    rw [Fsm.Eps, hstate]
    split
    · rename_i hend
      rw [mem_stateSetAdd, or_comm]
      exact or_congr Iff.rfl ⟨fun h => ⟨hend, h⟩, fun h => h.2⟩
    · rename_i hend
      exact ⟨.inl, fun h => h.elim (fun h => h) (fun h => absurd h.1 hend)⟩
  · intro s
    rw [Fsm.IsEnd, hstate]
    split
    · exact Iff.rfl
    · exact Iff.rfl
  · rw [Fsm.endidInfo_modifyAll, endidInfo_fsmAddstate]
  · rw [Fsm.eagerOutputInfo_modifyAll, eagerOutputInfo_fsmAddstate]

theorem Collated.wf {g : Fsm} (h : Collated f g) (hf : f.Wf) : g.Wf where
  start_lt hs := by
    rw [h.start] at hs
    have := hf.start_lt hs
    rw [h.statecount]
    omega
  edge_lt he := by
    have := hf.edge_lt ((h.edge _ _ _).mp he)
    rw [h.statecount]
    omega
  eps_lt {s t} he := by
    rw [h.statecount]
    rcases (h.eps s t).mp he with he | ⟨-, rfl⟩
    · have := hf.eps_lt he
      omega
    · omega
  endids_below := by
    rw [h.statecount, h.endidInfo]
    exact fun s hs => hf.endids_below s (by omega)
  eager_below := by
    rw [h.statecount, h.eagerOutputInfo]
    exact fun s hs => hf.eager_below s (by omega)

/-- Active states of a collated FSM: those of the original, and the new state after each
accepted word. -/
theorem Collated.active_iff {g : Fsm} (h : Collated f g) {s : ℕ} :
    g.Active w s ↔ f.Active w s ∨ (s = f.statecount ∧ w ∈ f.language) := by
  constructor
  · intro ha
    induction ha with
    | base hs =>
      rw [Fsm.mem_toNfa_start, h.start] at hs
      exact .inl (Active.base hs)
    | @eps w s t _ ht ih =>
      rw [Fsm.mem_toNfa_step_none, h.eps] at ht
      rcases ih with ih | ⟨rfl, -⟩
      · rcases ht with ht | ⟨hend, rfl⟩
        · exact .inl (Active.eps ih ht)
        · exact .inr ⟨rfl, Fsm.mem_language_iff.mpr ⟨s, ih, hend⟩⟩
      · -- nothing leaves the new state
        rcases ht with ht | ⟨hend, -⟩
        · exact absurd ht.source_lt (lt_irrefl _)
        · exact absurd hend.lt (lt_irrefl _)
    | @symbol w c s t _ ht ih =>
      rw [Fsm.mem_toNfa_step_some, h.edge] at ht
      rcases ih with ih | ⟨rfl, -⟩
      · exact .inl (Active.symbol ih ht)
      · exact absurd ht.source_lt (lt_irrefl _)
  · have hold : ∀ {w s}, f.Active w s → g.Active w s := by
      intro w s ha
      induction ha with
      | base hs => exact Active.base (h.start.trans hs)
      | eps _ ht ih => exact Active.eps ih ((h.eps _ _).mpr (.inl ht))
      | symbol _ ht ih => exact Active.symbol ih ((h.edge _ _ _).mpr ht)
    rintro (ha | ⟨rfl, hw⟩)
    · exact hold ha
    · obtain ⟨e, ha, hend⟩ := Fsm.mem_language_iff.mp hw
      exact Active.eps (hold ha) ((h.eps e _).mpr (.inr ⟨hend, rfl⟩))

/-! ## §3 Linking -/

theorem fsmSetend_wf (hf : f.Wf) (s : ℕ) (b : Bool) : (fsmSetend f s b).Wf := by
  refine ⟨?_, ?_, ?_, ?_, ?_⟩
  · intro t ht
    rw [start_fsmSetend] at ht
    rw [statecount_fsmSetend]
    exact hf.start_lt ht
  · intro r c t ht
    rw [statecount_fsmSetend]
    exact hf.edge_lt ((edge_fsmSetend f s b r c t).mp ht)
  · intro r t ht
    rw [statecount_fsmSetend]
    exact hf.eps_lt ((eps_fsmSetend f s b r t).mp ht)
  · rw [endidInfo_fsmSetend, statecount_fsmSetend]
    exact hf.endids_below
  · rw [eagerOutputInfo_fsmSetend, statecount_fsmSetend]
    exact hf.eager_below

/-- Setting an end mark changes no move. -/
theorem active_fsmSetend (f : Fsm) (s : ℕ) (b : Bool) {t : ℕ} :
    (fsmSetend f s b).Active w t ↔ f.Active w t :=
  Fsm.active_congr (start_fsmSetend f s b) (edge_fsmSetend f s b) (eps_fsmSetend f s b)

/-- What linking does to a merged FSM: one more epsilon edge, one end mark less. -/
structure Linked (m q : Fsm) (exit entry : ℕ) : Prop where
  edge : ∀ s c t, q.Edge s c t ↔ m.Edge s c t
  eps : ∀ s t, q.Eps s t ↔ m.Eps s t ∨ (s = exit ∧ t = entry)
  isEnd : ∀ s, q.IsEnd s ↔ m.IsEnd s ∧ s ≠ exit

theorem linked_fsmAddedgeEpsilon {exit : ℕ} (h : exit < m.statecount) (entry start : ℕ) :
    Linked m (fsmSetstart (fsmAddedgeEpsilon (fsmSetend m exit false) exit entry) start)
      exit entry := by
  have hexit : exit < (fsmSetend m exit false).statecount := by simpa using h
  refine ⟨fun s c t => ?_, fun s t => ?_, fun s => ?_⟩
  · exact (edge_fsmAddedgeEpsilon ..).trans (edge_fsmSetend ..)
  · exact (eps_fsmAddedgeEpsilon hexit ..).trans (or_congr_left (eps_fsmSetend ..))
  · refine Iff.trans (Fsm.isEnd_modifyState fun _ => rfl) ?_
    rw [Fsm.IsEnd, state_fsmSetend, Fsm.IsEnd]
    by_cases hs : s = exit
    · simp [hs, h]
    · simp [hs]

/-- Two operands placed side by side and linked are bridged. -/
theorem Linked.bridged {q : Fsm} {baseA baseB : ℕ} (hl : Linked m q (ea + baseA) (sb + baseB))
    (ha : a.Wf) (hb : b.Wf) (hpa : Placed a m baseA) (hpb : Placed b m baseB)
    (hsb : sb < b.statecount) (hsep : ∀ s < b.statecount, s + baseB ≠ ea + baseA) :
    Bridged a.toNfa b.toNfa q.toNfa {s | s < a.statecount} {s | s < b.statecount}
      (· + baseA) (· + baseB) ea sb := by
  refine ⟨fun s _ o t ht => ha.step_lt ht, ?_, ⟨fun s _ o t ht => hb.step_lt ht, ?_⟩, hsb⟩
  · intro s hs o t
    cases o with
    | none =>
      rw [Fsm.mem_toNfa_step_none, hl.eps, hpa.eps s hs]
      exact or_congr Iff.rfl ⟨fun h => ⟨by omega, rfl, h.2⟩, fun h => ⟨by rw [h.1], h.2.2⟩⟩
    | some c =>
      rw [Fsm.mem_toNfa_step_some, hl.edge, hpa.edge s hs]
      exact ⟨.inl, fun h => h.elim (fun h => h) (fun h => absurd h.2.1 (by simp))⟩
  · intro s hs o t
    cases o with
    | none =>
      rw [Fsm.mem_toNfa_step_none, hl.eps, hpb.eps s hs]
      exact ⟨fun h => h.elim (fun h => h) (fun h => absurd h.1 (hsep s hs)), .inl⟩
    | some c =>
      rw [Fsm.mem_toNfa_step_some, hl.edge, hpb.edge s hs]
      rfl

/-- The language of two linked operands: words accepted by the first at an end state other
than the linked one, and words that split at the linked state. -/
theorem Linked.mem_language_iff {q : Fsm} {baseA baseB : ℕ}
    (hl : Linked m q (ea + baseA) (sb + baseB)) (hq : q.start = some (sq + baseA)) (ha : a.Wf)
    (hb : b.Wf) (hpa : Placed a m baseA) (hpb : Placed b m baseB) (hsq : a.start = some sq)
    (hsb : b.start = some sb) (hsep : ∀ s < b.statecount, s + baseB ≠ ea + baseA) :
    w ∈ q.language ↔
      (∃ s, a.Active w s ∧ a.IsEnd s ∧ s ≠ ea) ∨
        ∃ y z, w = y ++ z ∧ a.Active y ea ∧ z ∈ b.language := by
  have hbridge := hl.bridged ha hb hpa hpb (hb.start_lt hsb) hsep
  have hsub : a.toNfa.start ⊆ {s | s < a.statecount} := fun s hs => ha.start_lt hs
  have himage : q.toNfa.start = (· + baseA) '' a.toNfa.start := by
    rw [Fsm.toNfa_start_eq hq, Fsm.toNfa_start_eq hsq, Set.image_singleton]
  -- a run crosses from the first operand to the second once at most
  have hactive : ∀ s', q.Active w s' ↔
      (∃ s, a.Active w s ∧ s + baseA = s') ∨
        ∃ y z, w = y ++ z ∧ a.Active y ea ∧ ∃ s, b.Active z s ∧ s + baseB = s' := by
    intro s'
    rw [Fsm.Active, himage, hbridge.active_iff hsub, ← Fsm.toNfa_start_eq hsb]
    rfl
  rw [Fsm.mem_language_iff]
  constructor
  · rintro ⟨s', hs', hend⟩
    rw [hl.isEnd] at hend
    rcases (hactive s').mp hs' with ⟨s, hs, rfl⟩ | ⟨y, z, rfl, hy, s, hs, rfl⟩
    · rw [hpa.isEnd s (ha.active_lt hs)] at hend
      exact .inl ⟨s, hs, hend.1, fun h => hend.2 (by rw [h])⟩
    · rw [hpb.isEnd s (hb.active_lt hs)] at hend
      exact .inr ⟨y, z, rfl, hy, Fsm.mem_language_iff.mpr ⟨s, hs, hend.1⟩⟩
  · rintro (⟨s, hs, hend, hne⟩ | ⟨y, z, rfl, hy, hz⟩)
    · refine ⟨s + baseA, (hactive _).mpr (.inl ⟨s, hs, rfl⟩), ?_⟩
      rw [hl.isEnd, hpa.isEnd s (ha.active_lt hs)]
      exact ⟨hend, fun h => hne (Nat.add_right_cancel h)⟩
    · obtain ⟨s, hs, hend⟩ := Fsm.mem_language_iff.mp hz
      refine ⟨s + baseB, (hactive _).mpr (.inr ⟨y, z, rfl, hy, s, hs, rfl⟩), ?_⟩
      rw [hl.isEnd, hpb.isEnd s (hb.active_lt hs)]
      exact ⟨hend, hsep s (hb.active_lt hs)⟩

/-- The language after linking, in terms of the operands. -/
theorem mem_language_linkOperands (ha : a.Wf) (hb : b.Wf) (hea : ea < a.statecount)
    (hsq : a.start = some sq) (hsb : b.start = some sb) :
    w ∈ (linkOperands a b ea sq sb).language ↔
      (∃ s, a.Active w s ∧ a.IsEnd s ∧ s ≠ ea) ∨
        ∃ y z, w = y ++ z ∧ a.Active y ea ∧ z ∈ b.language := by
  have ha' : (fsmSetend a ea true).Wf := fsmSetend_wf ha ea true
  have hpa := mergeOperands_placed_left ha' hb
  have hpb := mergeOperands_placed_right ha' hb
  have hle := hpa.le
  have hbases := mergeOperands_bases (fsmSetend a ea true) b
  rw [statecount_fsmSetend] at hle hbases
  have hexit : ea + (mergeOperands (fsmSetend a ea true) b).2.baseA <
      (mergeOperands (fsmSetend a ea true) b).1.statecount := by omega
  have hl : Linked (mergeOperands (fsmSetend a ea true) b).1 (linkOperands a b ea sq sb)
      (ea + (mergeOperands (fsmSetend a ea true) b).2.baseA)
      (sb + (mergeOperands (fsmSetend a ea true) b).2.baseB) :=
    linked_fsmAddedgeEpsilon hexit _ _
  have hmem := hl.mem_language_iff (w := w) rfl ha' hb hpa hpb
    ((start_fsmSetend a ea true).trans hsq) hsb (fun s hs => by omega)
  refine Iff.trans hmem (or_congr ?_ ?_)
  · -- the extra end mark on `ea` itself is taken away again
    refine exists_congr fun s => and_congr (active_fsmSetend a ea true) ?_
    refine and_congr_left fun hne => ?_
    rw [Fsm.IsEnd, state_fsmSetend, if_neg fun h => hne h.1, Fsm.IsEnd]
  · simp only [active_fsmSetend]

/-! ## §4 The Language Of A Concatenation -/

/-- The one end state, when `fsm_count` says there is one. -/
theorem exists_unique_end_of_fsmCount_eq_one (h : fsmCount f fsmIsend = 1) :
    ∃ e, (range f.statecount).find? (fsmIsend f) = some e ∧ f.IsEnd e ∧
      ∀ s, f.IsEnd s → s = e := by
  rw [fsmCount, countP_eq_length_filter] at h
  obtain ⟨e, he⟩ := length_eq_one_iff.mp h
  have hfind : (range f.statecount).find? (fsmIsend f) = some e := by
    rw [← head?_filter, he, head?_cons]
  have hmem : ∀ s, f.IsEnd s ↔ s = e := by
    intro s
    rw [← List.mem_singleton, ← he, List.mem_filter, List.mem_range]
    exact ⟨fun hs => ⟨hs.lt, hs⟩, fun hs => hs.2⟩
  exact ⟨e, hfind, (hmem e).mpr rfl, fun s => (hmem s).mp⟩

/-- With a single end state, linking gives the concatenation of the languages. -/
theorem language_of_one_end (ha : a.Wf) (hb : b.Wf) (hsq : a.start = some sq)
    (hsb : b.start = some sb) (hone : fsmCount a fsmIsend = 1) :
    ∃ e, fsmCollate a fsmIsend = some (e, a) ∧
      (linkOperands a b e sq sb).language = a.language * b.language := by
  obtain ⟨e, hfind, he, huniq⟩ := exists_unique_end_of_fsmCount_eq_one hone
  refine ⟨e, by simp [fsmCollate, hone, hfind], ?_⟩
  ext w
  rw [mem_language_linkOperands ha hb he.lt hsq hsb]
  constructor
  · rintro (⟨s, -, hs, hne⟩ | ⟨y, z, rfl, hy, hz⟩)
    · exact absurd (huniq s hs) hne
    · exact ⟨y, Fsm.mem_language_iff.mpr ⟨e, hy, he⟩, z, hz, rfl⟩
  · rintro ⟨y, hy, z, hz, rfl⟩
    obtain ⟨s, hs, hend⟩ := Fsm.mem_language_iff.mp hy
    obtain rfl := huniq s hend
    exact .inr ⟨y, z, rfl, hs, hz⟩

/-- With several end states, the first operand's language is accepted too: the collated
states keep their end marks. -/
theorem language_of_many_ends (ha : a.Wf) (hb : b.Wf) (hsq : a.start = some sq)
    (hsb : b.start = some sb) (hmany : 2 ≤ fsmCount a fsmIsend) :
    ∃ g, fsmCollate a fsmIsend = some (a.statecount, g) ∧ Collated a g ∧
      (linkOperands g b a.statecount sq sb).language = a.language * b.language + a.language := by
  have hcol := collated_foldl a
  generalize hg : (range (fsmAddstate a).2.statecount).foldl
    (fsmCollateStep fsmIsend a.statecount) (fsmAddstate a).2 = g at hcol
  have hcollate : fsmCollate a fsmIsend = some (a.statecount, g) := by
    unfold fsmCollate
    split
    · omega
    · omega
    · rw [← hg]
      rfl
  have hnew : a.statecount < g.statecount := by
    rw [hcol.statecount]
    omega
  refine ⟨g, hcollate, hcol, ?_⟩
  ext w
  rw [mem_language_linkOperands (hcol.wf ha) hb hnew (hcol.start.trans hsq) hsb]
  constructor
  · rintro (⟨s, hs, hend, hne⟩ | ⟨y, z, rfl, hy, hz⟩)
    · -- an old end state, still marked
      rw [hcol.active_iff] at hs
      rw [hcol.isEnd] at hend
      rcases hs with hs | ⟨h, -⟩
      · exact .inr (Fsm.mem_language_iff.mpr ⟨s, hs, hend⟩)
      · exact absurd h hne
    · rw [hcol.active_iff] at hy
      rcases hy with hy | ⟨-, hy⟩
      · exact absurd (ha.active_lt hy) (lt_irrefl _)
      · exact .inl ⟨y, hy, z, hz, rfl⟩
  · rintro (⟨y, hy, z, hz, rfl⟩ | hw)
    · exact .inr ⟨y, z, rfl, hcol.active_iff.mpr (.inr ⟨rfl, hy⟩), hz⟩
    · obtain ⟨s, hs, hend⟩ := Fsm.mem_language_iff.mp hw
      exact .inl ⟨s, hcol.active_iff.mpr (.inl hs), (hcol.isEnd s).mpr hend,
        (ha.active_lt hs).ne⟩

/-- `A` is contained in `A * B` only for trivial reasons: a shortest word of `A` can only
be split with the empty word on the right. -/
theorem mul_add_eq_mul_iff {α : Type*} (A B : Language α) :
    A * B + A = A * B ↔ A = 0 ∨ [] ∈ B := by
  constructor
  · intro h
    by_contra hne
    push Not at hne
    obtain ⟨hA, hB⟩ := hne
    have hex : ∃ n, ∃ u ∈ A, u.length = n := by
      by_contra hno
      push Not at hno
      apply hA
      ext u
      exact ⟨fun hu => absurd rfl (hno u.length u hu), fun hu => absurd hu (Language.notMem_zero u)⟩
    classical
    obtain ⟨u, hu, hlen⟩ := Nat.find_spec hex
    have hmul : u ∈ A * B := by
      rw [← h]
      exact .inr hu
    obtain ⟨y, hy, z, hz, rfl⟩ := Language.mem_mul.mp hmul
    have hmin : Nat.find hex ≤ y.length := Nat.find_min' hex ⟨y, hy, rfl⟩
    rw [length_append] at hlen
    have hz0 : z = [] := eq_nil_of_length_eq_zero (by omega)
    exact hB (hz0 ▸ hz)
  · rintro (rfl | hB)
    · rw [zero_mul, zero_add]
    · ext w
      refine ⟨fun h => h.elim (fun h => h) fun h => ?_, .inl⟩
      exact Language.mem_mul.mpr ⟨w, h, [], hB, append_nil w⟩

/-! ## §5 When It Is The Concatenation -/

/-- The merge fails no assertion on what the collation makes of the first operand. -/
def ConcatFits (a b : StoredFsm) : Prop :=
  ∀ r ∈ fsmCollate a.toFsm fsmIsend, Mergeable { a with toFsm := fsmSetend r.2 r.1 true } b

instance (a b : StoredFsm) : Decidable (ConcatFits a b) :=
  inferInstanceAs (Decidable (∀ r ∈ fsmCollate a.toFsm fsmIsend,
    Mergeable { a with toFsm := fsmSetend r.2 r.1 true } b))

/-- After the collation all that can fail is the merge. -/
theorem fsmConcat_iff_of_collate {a b : StoredFsm} {g : Fsm} (hg : { a with toFsm := g }.Valid)
    (hb : b.Valid) (hsq : a.start = some sq) (hsb : b.start = some sb) (ha0 : a.statecount ≠ 0)
    (hend : fsmHas a.toFsm fsmIsend = true)
    (hcollate : fsmCollate a.toFsm fsmIsend = some (ea, g)) (L : Language Byte) :
    (∃ q, fsmConcat a b = some q ∧ q.1.language = L) ↔
      ConcatFits a b ∧ (linkOperands g b.toFsm ea sq sb).language = L := by
  have hb0 : b.statecount ≠ 0 := ne_of_gt (Nat.zero_lt_of_lt (hb.wf.start_lt hsb))
  have hconcat : fsmConcat a b = fsmConcatLink { a with toFsm := g } b ea sq sb := by
    simp [fsmConcat, ha0, hb0, hend, fsmGetstart, hsq, hsb, hcollate]
  have hmark : { a with toFsm := fsmSetend g ea true }.Valid := by
    refine ⟨fsmSetend_wf hg.wf ea true, ?_⟩
    have hsame : (fsmSetend g ea true).endidStates = g.endidStates := by
      rw [Fsm.endidStates, statecount_fsmSetend, endidInfo_fsmSetend, Fsm.endidStates]
    rw [StoredFsm.counters, hsame]
    exact hg.counters
  have hfits : ConcatFits a b ↔ Mergeable { a with toFsm := fsmSetend g ea true } b := by
    refine ⟨fun h => h _ hcollate, fun h r hr => ?_⟩
    cases hcollate.symm.trans hr
    exact h
  rw [hfits, hconcat, fsmConcatLink]
  rcases fsmMerge_cases hmark hb with ⟨hnot, hnone⟩ | ⟨hmerge, q, hq, hstates, -⟩
  · rw [hnone]
    simp [hnot]
  · rw [hq]
    simp [hmerge, hstates, linkOperands]

/-- Two states, both of them end states, with an edge on `a`: accepts the empty string and
`"a"`. -/
def concatTwoEnds : StoredFsm :=
  ⟨fsmSetstart (fsmSetend (fsmSetend
    (fsmAddedgeLiteral (fsmAddstateBulk fsmNew 2) 0 1 97) 0 true) 1 true) 0, 4, 0⟩

/-- Two states with an edge on `b` to the end state, which has an end ID: accepts `"b"`.  The
table counts `used` buckets. -/
def concatOneEnd (used : ℕ) : StoredFsm :=
  ⟨{ fsmSetstart (fsmSetend (fsmAddedgeLiteral (fsmAddstateBulk fsmNew 2) 0 1 98) 1 true) 0 with
      endidInfo := endidSet ∅ 1 7 }, 4, used⟩

end Libfsm
