import Libfsm.Ops.Determinise
import Libfsm.Ops.Walk2

/-!
# Intersection And Subtraction

`fsm_walk2` starts the product walk of `Libfsm.Ops.Walk2` at the two start states.
`fsm_intersect` follows and accepts only what both operands have; `fsm_subtract` follows all
edges of `a` and accepts where `a` does and `b` does not.

- `walk2Next`: the product's transition function, for any two masks
- `Product`, `fsmWalk2_product`: the result of the walk runs as this function
- `runFrom_intersect`, `runFrom_subtract`: its runs for the masks of the two operations
- `fsmIntersect_fsmSubtract`: both operations, for operands of at most `2 ^ 24` states
-/

namespace Libfsm

open Lib Option
open Option hiding none some ext

variable {a b f : Fsm} {k : StatePair} {c : Byte} {i n s t : ℕ} {w : List Byte}

/-! ## §1 Definitions -/

/-- `fsm_walk2` after its assertions. -/
def walk2Product (a b : Fsm) (edgemask endmask : Walk2Mask) : Fsm :=
  match fsmGetstart a, fsmGetstart b with
  | none, none => fsmNew
  | some _, none => if endmask.allows fsmWalk2OnlyA then fsmClone a else fsmNew
  | none, some _ => if endmask.allows fsmWalk2OnlyB then fsmClone b else fsmNew
  | some sa, some sb =>
    let (tup0, d) := fsmWalk2TupleNew a b endmask ⟨fsmNew, .empty⟩ (some sa, some sb)
    let d := { d with new := fsmSetstart d.new tup0.comb }
    (fsmWalk2Edges a b edgemask endmask ((a.statecount + 1) * (b.statecount + 1)) d tup0).new

/-- `fsm_walk2`, which asserts that both operands are DFAs. -/
def fsmWalk2 (a b : Fsm) (edgemask endmask : Walk2Mask) : Option Fsm :=
  if fsmAll a fsmIsdfa ∧ fsmAll b fsmIsdfa then some (walk2Product a b edgemask endmask) else none

/-- The determinisation before a product; nothing is done to a DFA. -/
def ensureDfa (f : Fsm) : Option Fsm := if fsmAll f fsmIsdfa then some f else fsmDeterminise f

def fsmIntersect (a b : Fsm) : Option Fsm :=
  (ensureDfa a).bind fun a => (ensureDfa b).bind fun b => fsmWalk2 a b fsmWalk2Both fsmWalk2Both

def fsmSubtract (a b : Fsm) : Option Fsm :=
  (ensureDfa a).bind fun a => (ensureDfa b).bind fun b =>
    fsmWalk2 a b (fsmWalk2OnlyA ||| fsmWalk2Both) fsmWalk2OnlyA

/-! ## §2 The Transition Function -/

/-- The destination of a state on a symbol, as `edge_set_transition` reads it. -/
def Fsm.transition (f : Fsm) (s : ℕ) (c : Byte) : Option ℕ := edgeSetTransition (f.state s).edges c

/-- The pair the walk goes to on a symbol. -/
def walk2Next (a b : Fsm) (edgemask : Walk2Mask) (k : StatePair) (c : Byte) : Option StatePair :=
  if k.2.isNone && !edgemask.allows fsmWalk2OnlyA then none
  else
    (if edgemask.allows (fsmWalk2Both ||| fsmWalk2OnlyA) then walk2MoveA a b edgemask k c
      else none).or
    (if edgemask.allows fsmWalk2OnlyB then walk2MoveB a b k c else none)

/-- A symbol the first loop follows is none of the second loop's. -/
theorem walk2MoveB_eq_none {edgemask : Walk2Mask} {k' : StatePair}
    (h : walk2MoveA a b edgemask k c = some k') : walk2MoveB a b k c = none := by
  obtain ⟨qa, hqa, h⟩ := bind_eq_some_iff.mp h
  obtain ⟨eas, heas, -⟩ := bind_eq_some_iff.mp h
  have hcontains : edgeSetContains (a.state qa).edges c = true := by
    rw [edgeSetContains_eq_true_iff]
    by_contra hno
    push Not at hno
    rw [edgeSetTransition_eq_none_iff.mpr hno] at heas
    cases heas
  unfold walk2MoveB
  rw [hqa, any_some, hcontains]
  simp

/-- The edges followed are the moves of the transition function. -/
theorem mem_walk2Moves {edgemask : Walk2Mask} {k' : StatePair} :
    (c, k') ∈ walk2Moves a b edgemask k ↔ walk2Next a b edgemask k c = some k' := by
  have hloop : ∀ (move : Byte → Option StatePair),
      ((c, k') ∈ (List.finRange 256).filterMap fun c => (move c).map (c, ·)) ↔
        move c = some k' := by
    simp [List.mem_filterMap]
  unfold walk2Moves walk2Next
  split
  · simp
  · rw [List.mem_append, or_eq_some_iff]
    split
    · split
      · rw [hloop, hloop]
        constructor
        · rintro (h | h)
          · exact .inl h
          · refine .inr ⟨?_, h⟩
            rw [eq_none_iff_forall_ne_some]
            intro k'' h'
            rw [walk2MoveB_eq_none h'] at h
            cases h
        · rintro (h | h)
          · exact .inl h
          · exact .inr h.2
      · simp [hloop]
    · split
      · simp [hloop]
      · simp

theorem transition_lt (hf : f.Wf) (hdfa : f.IsDfa) (h : f.transition s c = some t) :
    t < f.statecount := by
  obtain ⟨t', ht', rfl⟩ := (edgeSetTransition_eq_some_iff (hdfa.functional s)).mp h
  exact (Nat.mod_le _ _).trans_lt (hf.edge_lt ht')

/-- The 24 bits of `struct fsm_edge` are enough for this many states. -/
theorem transition_eq_next (hf : f.Wf) (hdfa : f.IsDfa) (hsize : f.statecount ≤ 2 ^ 24) :
    f.transition = f.next := by
  funext s c
  apply Option.ext
  intro t
  rw [Fsm.transition, edgeSetTransition_eq_some_iff (hdfa.functional s), hdfa.next_eq_some_iff]
  constructor
  · rintro ⟨t', ht', rfl⟩
    rw [Nat.mod_eq_of_lt ((hf.edge_lt ht').trans_le hsize)]
    exact ht'
  · intro ht
    exact ⟨t, ht, (Nat.mod_eq_of_lt ((hf.edge_lt ht).trans_le hsize)).symm⟩

theorem mem_pairBound : k ∈ pairBound a b ↔
    (∀ s ∈ k.1, s < a.statecount) ∧ ∀ s ∈ k.2, s < b.statecount := by
  simp [pairBound]

/-- The walk stays among the pairs of states of the operands. -/
theorem walk2Moves_bounded (ha : a.Wf) (hb : b.Wf) (hda : a.IsDfa) (hdb : b.IsDfa)
    (edgemask : Walk2Mask) (k : StatePair) (m : Byte × StatePair)
    (hm : m ∈ walk2Moves a b edgemask k) : m.2 ∈ pairBound a b := by
  have hb' : ∀ {s}, s ∈ (k.2.bind fun qb => b.transition qb m.1) → s < b.statecount := by
    intro s hs
    obtain ⟨qb, -, hs⟩ := bind_eq_some_iff.mp hs
    exact transition_lt hb hdb hs
  have hA : ∀ {k'}, walk2MoveA a b edgemask k m.1 = some k' → k' ∈ pairBound a b := by
    intro k' h
    obtain ⟨qa, -, h⟩ := bind_eq_some_iff.mp h
    obtain ⟨eas, heas, h⟩ := bind_eq_some_iff.mp h
    dsimp only at h
    split at h
    · cases h
    · cases h
      refine mem_pairBound.mpr ⟨fun s hs => ?_, fun s hs => hb' hs⟩
      cases hs
      exact transition_lt ha hda heas
  have hB : ∀ {k'}, walk2MoveB a b k m.1 = some k' → k' ∈ pairBound a b := by
    intro k' h
    obtain ⟨qb, -, h⟩ := bind_eq_some_iff.mp h
    obtain ⟨ebs, hebs, h⟩ := bind_eq_some_iff.mp h
    split at h
    · cases h
    · cases h
      refine mem_pairBound.mpr ⟨fun s hs => absurd hs (not_mem_none s), fun s hs => ?_⟩
      cases hs
      exact transition_lt hb hdb hebs
  have hnext : walk2Next a b edgemask k m.1 = some m.2 := mem_walk2Moves.mp hm
  unfold walk2Next at hnext
  split at hnext
  · cases hnext
  · rcases or_eq_some_iff.mp hnext with h | ⟨-, h⟩
    · split at h
      · exact hA h
      · cases h
    · split at h
      · exact hB h
      · cases h

/-! ## §3 The Product -/

/-- The FSM of all pairs that the walk meets from a pair of start states.  `val` says which
pair a combined state stands for. -/
structure Product (a b : Fsm) (edgemask endmask : Walk2Mask) (k₀ : StatePair) (q : Fsm)
    (val : ℕ → StatePair) : Prop where
  wf : q.Wf
  isDfa : q.IsDfa
  start : q.start.isSome = true
  realises : Realises q.toNfa {p | p < q.statecount} (walk2Next a b edgemask) k₀ val
  val_inj : ∀ p < q.statecount, ∀ p' < q.statecount, val p = val p' → p = p'
  isEnd : ∀ p < q.statecount, (q.IsEnd p ↔ pairIsEnd a b endmask (val p) = true)
  endids : ∀ p < q.statecount, ∀ i, i ∈ q.endidInfo.get p ↔
    pairIsEnd a b endmask (val p) = true ∧ i ∈ pairEndids a b (val p)
  reached : ∀ p < q.statecount, ∃ w, Lib.runFrom (walk2Next a b edgemask) k₀ w = some (val p)

section Walk

variable {a b : Fsm} (ha : a.Wf) (hb : b.Wf) (hda : a.IsDfa) (hdb : b.IsDfa)
  {edgemask endmask : Walk2Mask}

/-- The data before the walk, without any tuple. -/
theorem walk2Inv_init (a b : Fsm) (endmask : Walk2Mask) (B : Finset StatePair) :
    Walk2Inv a b endmask B ⟨fsmNew, .empty⟩ := by
  have hedge : ∀ {p c q}, ¬ fsmNew.Edge p c q := by
    intro p c q he
    exact hasEdge_null c q he
  have hempty : ∀ {t}, t ∉ (SortedArray.empty : SortedArray Walk2Tuple Walk2Tuple.key).entries :=
    fun ht => absurd ht List.not_mem_nil
  constructor
  case count => rfl
  case comb_lt => exact fun ht => absurd ht hempty
  case comb_inj => exact fun ht => absurd ht hempty
  case covers => exact fun hp => absurd hp (Nat.not_lt_zero _)
  case bounded => exact fun ht => absurd ht hempty
  case isEnd => exact fun ht => absurd ht hempty
  case endids => exact fun ht => absurd ht hempty
  case endids_below => exact fun s _ => IdTable.get_empty s
  case eager => rfl
  case not_eps =>
    intro s t hst
    exact notMem_null t hst
  case edge_lt => exact fun he => absurd he hedge
  case edge_visited => exact fun he => absurd he hedge

/-- Setting the start state is no concern of the invariant. -/
theorem Walk2Inv.setStart {d : Walk2Data} {B : Finset StatePair}
    (h : Walk2Inv a b endmask B d) (s : ℕ) :
    Walk2Inv a b endmask B { d with new := fsmSetstart d.new s } :=
  ⟨h.count, h.comb_lt, h.comb_inj, h.covers, h.bounded, h.isEnd, h.endids, h.endids_below,
    h.eager, h.not_eps, h.edge_lt, h.edge_visited⟩

/-- Every combined state stands for the pair of its tuple. -/
theorem Walk2Inv.exists_val {d : Walk2Data} {B : Finset StatePair}
    (h : Walk2Inv a b endmask B d) :
    ∃ val : ℕ → StatePair, ∀ t ∈ d.states.entries, val t.comb = t.pair := by
  classical
  refine ⟨fun p => if hp : p < d.new.statecount then (h.covers hp).choose.pair
    else (none, none), fun t ht => ?_⟩
  have hlt := h.comb_lt ht
  dsimp only
  rw [dif_pos hlt]
  obtain ⟨hmem, hcomb⟩ := (h.covers hlt).choose_spec
  rw [h.comb_inj hmem ht hcomb]

/-- The edges of a complete tuple are the moves of the transition function. -/
theorem Walk2Data.Complete.next {d : Walk2Data} {t : Walk2Tuple} {q : ℕ}
    (h : d.Complete a b edgemask t) {c : Byte} (he : d.new.Edge t.comb c q) :
    ∃ t' ∈ d.states.entries, t'.comb = q ∧ walk2Next a b edgemask t.pair c = some t'.pair := by
  obtain ⟨k, hk, hq⟩ := h.edge he
  exact ⟨⟨k, q⟩, hq, rfl, mem_walk2Moves.mp hk⟩

theorem Walk2Inv.realises {d : Walk2Data} {B : Finset StatePair} (h : Walk2Inv a b endmask B d)
    (hcomplete : ∀ {t}, t ∈ d.states.entries → d.Complete a b edgemask t) {t₀ : Walk2Tuple}
    (ht₀ : t₀ ∈ d.states.entries) (hstart : d.new.start = some t₀.comb) {val : ℕ → StatePair}
    (hval : ∀ t ∈ d.states.entries, val t.comb = t.pair) :
    Realises d.new.toNfa {p | p < d.new.statecount} (walk2Next a b edgemask) t₀.pair val := by
  constructor
  case eps =>
    intro p _
    exact Set.eq_empty_of_forall_notMem fun q hq => h.not_eps p q hq
  case start =>
    intro p hp
    cases hstart.symm.trans hp
    exact ⟨h.comb_lt ht₀, hval t₀ ht₀⟩
  case start_nonempty => exact ⟨t₀.comb, hstart⟩
  case step =>
    intro p hp c q hq
    obtain ⟨t, ht, rfl⟩ := h.covers hp
    obtain ⟨t', ht', rfl, hn⟩ := (hcomplete ht).next hq
    rw [hval t ht, hval t' ht']
    exact ⟨h.comb_lt ht', hn⟩
  case exists_step =>
    intro p hp c k hk
    obtain ⟨t, ht, rfl⟩ := h.covers hp
    rw [hval t ht] at hk
    obtain ⟨q, -, -, hq⟩ := (hcomplete ht).exists_edge (mem_walk2Moves.mpr hk)
    exact ⟨q, hq⟩

/-- Data in which every tuple is complete is a product. -/
theorem product_of_complete {d : Walk2Data} {B : Finset StatePair}
    (h : Walk2Inv a b endmask B d)
    (hcomplete : ∀ {t}, t ∈ d.states.entries → d.Complete a b edgemask t) {t₀ : Walk2Tuple}
    (ht₀ : t₀ ∈ d.states.entries) (hstart : d.new.start = some t₀.comb)
    (hB : ∀ k ∈ B, ∃ w, Lib.runFrom (walk2Next a b edgemask) t₀.pair w = some k) :
    ∃ val, Product a b edgemask endmask t₀.pair d.new val := by
  obtain ⟨val, hval⟩ := h.exists_val
  refine ⟨val, ?_⟩
  constructor
  case wf =>
    refine ⟨fun hs => ?_, h.edge_lt, fun hst => absurd hst (h.not_eps _ _), h.endids_below, ?_⟩
    · rw [← some.inj (hstart.symm.trans hs)]
      exact h.comb_lt ht₀
    · rw [h.eager]
      exact fun s _ => IdTable.get_empty s
  case isDfa =>
    refine Fsm.isDfa_iff.mpr ⟨fun _ => by rw [hstart]; rfl, h.not_eps, ?_⟩
    intro p c q q' hq hq'
    obtain ⟨t, ht, rfl⟩ := h.covers hq.source_lt
    obtain ⟨t₁, ht₁, rfl, hn₁⟩ := (hcomplete ht).next hq
    obtain ⟨t₂, ht₂, rfl, hn₂⟩ := (hcomplete ht).next hq'
    rw [Walk2Inv.pair_inj ht₁ ht₂ (some.inj (hn₁.symm.trans hn₂))]
  case start => rw [hstart]; rfl
  case realises => exact h.realises hcomplete ht₀ hstart hval
  case val_inj =>
    intro p hp p' hp' heq
    obtain ⟨t, ht, rfl⟩ := h.covers hp
    obtain ⟨t', ht', rfl⟩ := h.covers hp'
    rw [hval t ht, hval t' ht'] at heq
    rw [Walk2Inv.pair_inj ht ht' heq]
  case isEnd =>
    intro p hp
    obtain ⟨t, ht, rfl⟩ := h.covers hp
    rw [hval t ht]
    exact h.isEnd ht
  case endids =>
    intro p hp i
    obtain ⟨t, ht, rfl⟩ := h.covers hp
    rw [hval t ht]
    exact h.endids ht i
  case reached =>
    intro p hp
    obtain ⟨t, ht, rfl⟩ := h.covers hp
    rw [hval t ht]
    exact hB _ (h.bounded ht)

include ha hb hda hdb in
/-- **The walk builds the product**, for all masks. -/
theorem fsmWalk2_product {sa sb : ℕ} (hsa : a.start = some sa) (hsb : b.start = some sb) :
    ∃ val, Product a b edgemask endmask (some sa, some sb)
      (walk2Product a b edgemask endmask) val := by
  classical
  -- the pairs of states that some word leads to
  obtain ⟨B, hB⟩ : ∃ B : Finset StatePair, ∀ k, k ∈ B ↔ k ∈ pairBound a b ∧
      ∃ w, Lib.runFrom (walk2Next a b edgemask) (some sa, some sb) w = some k :=
    ⟨(pairBound a b).filter _, fun k => Finset.mem_filter⟩
  have hcard : B.card ≤ (a.statecount + 1) * (b.statecount + 1) :=
    (Finset.card_le_card fun k hk => ((hB k).mp hk).1).trans_eq card_pairBound
  have hmoves : ∀ {k}, k ∈ B → ∀ m ∈ walk2Moves a b edgemask k, m.2 ∈ B := by
    intro k hk m hm
    obtain ⟨-, w, hw⟩ := (hB k).mp hk
    refine (hB m.2).mpr ⟨walk2Moves_bounded ha hb hda hdb edgemask k m hm, w ++ [m.1], ?_⟩
    rw [runFrom_append_singleton, hw]
    exact mem_walk2Moves.mp hm
  have hk₀ : (some sa, some sb) ∈ B := by
    refine (hB _).mpr ⟨mem_pairBound.mpr ⟨fun s hs => ?_, fun s hs => ?_⟩, [], rfl⟩
    · cases hs
      exact ha.start_lt hsa
    · cases hs
      exact hb.start_lt hsb
  have hadd := fsmWalk2TupleNew_added (walk2Inv_init a b endmask B) hk₀
  unfold walk2Product fsmGetstart
  rw [hsa, hsb]
  dsimp only
  generalize fsmWalk2TupleNew a b endmask ⟨fsmNew, .empty⟩ (some sa, some sb) = r at hadd ⊢
  obtain ⟨tup0, d₀⟩ := r
  have hinv := hadd.inv.setStart tup0.comb
  have hno : ¬ Walk2Data.Visited { d₀ with new := fsmSetstart d₀.new tup0.comb } tup0.comb := by
    intro hvis
    have hnew : (d₀.new.state tup0.comb).visited = true := hvis
    rw [hadd.visited, Fsm.state_of_le (Nat.zero_le _)] at hnew
    exact absurd hnew (by decide)
  obtain ⟨hw, hv⟩ := fsmWalk2Edges_walked hmoves hinv hadd.mem hno
    (hcard.trans (Nat.le_add_right _ _))
  have hstart := hw.start
  generalize fsmWalk2Edges a b edgemask endmask ((a.statecount + 1) * (b.statecount + 1))
    { d₀ with new := fsmSetstart d₀.new tup0.comb } tup0 = d at hw hv hstart ⊢
  -- nothing was visited before the walk, so everything is complete now
  have hunvisited : ∀ p, ¬ Walk2Data.Visited { d₀ with new := fsmSetstart d₀.new tup0.comb } p := by
    intro p hvis
    have hnew : (d₀.new.state p).visited = true := hvis
    rw [hadd.visited, Fsm.state_of_le (Nat.zero_le _)] at hnew
    exact absurd hnew (by decide)
  have hall : ∀ {t}, t ∈ d.states.entries → d.Visited t.comb := by
    intro t ht
    by_cases hmem : t ∈ d₀.states.entries
    · rcases hadd.entries.mp hmem with rfl | hmem
      · exact hv
      · cases hmem
    · exact hw.fresh ht hmem
  have hcomplete : ∀ {t}, t ∈ d.states.entries → d.Complete a b edgemask t :=
    fun ht => hw.complete ht (hunvisited _) (hall ht)
  obtain ⟨val, hval⟩ := product_of_complete hw.inv hcomplete (hw.entries hadd.mem) hstart
    fun k hk => hadd.pair ▸ ((hB k).mp hk).2
  exact ⟨val, hadd.pair ▸ hval⟩

end Walk

namespace Product

variable {a b : Fsm} {edgemask endmask : Walk2Mask} {k₀ : StatePair} {q : Fsm}
  {val : ℕ → StatePair} (h : Product a b edgemask endmask k₀ q val)

include h

/-- A word is accepted when it leads to a pair that is an end state. -/
theorem mem_language_iff : w ∈ q.language ↔
    ∃ k, Lib.runFrom (walk2Next a b edgemask) k₀ w = some k ∧ pairIsEnd a b endmask k = true := by
  rw [Fsm.mem_language_iff]
  constructor
  · intro ⟨p, hp, hend⟩
    obtain ⟨hlt, hrun⟩ := h.realises.run_of_active hp
    exact ⟨val p, hrun, (h.isEnd p hlt).mp hend⟩
  · intro ⟨k, hrun, hend⟩
    obtain ⟨p, hp, rfl⟩ := h.realises.exists_active hrun
    exact ⟨p, hp, (h.isEnd p (h.realises.run_of_active hp).1).mpr hend⟩

/-- The end IDs after a word are those of the pair it leads to. -/
theorem mem_endIdsAfter_iff : i ∈ q.endIdsAfter w ↔
    ∃ k, Lib.runFrom (walk2Next a b edgemask) k₀ w = some k ∧
      pairIsEnd a b endmask k = true ∧ i ∈ pairEndids a b k := by
  constructor
  · intro ⟨p, hp, hend, hi⟩
    obtain ⟨hlt, hrun⟩ := h.realises.run_of_active hp
    exact ⟨val p, hrun, (h.endids p hlt i).mp hi⟩
  · intro ⟨k, hrun, hend, hi⟩
    obtain ⟨p, hp, rfl⟩ := h.realises.exists_active hrun
    have hlt := (h.realises.run_of_active hp).1
    exact ⟨p, hp, (h.isEnd p hlt).mpr hend, (h.endids p hlt i).mpr ⟨hend, hi⟩⟩

end Product

/-! ## §4 The Two Operations -/

section Runs

variable {a b : Fsm}

theorem walk2Next_intersect (qa qb : ℕ) (c : Byte) :
    walk2Next a b fsmWalk2Both (some qa, some qb) c =
      (a.transition qa c).bind fun ta => (b.transition qb c).map fun tb => (some ta, some tb) := by
  have hmasks : fsmWalk2Both.allows fsmWalk2OnlyA = false ∧
      fsmWalk2Both.allows (fsmWalk2Both ||| fsmWalk2OnlyA) = true ∧
      fsmWalk2Both.allows fsmWalk2OnlyB = false := by decide
  unfold walk2Next walk2MoveA
  simp only [hmasks.1, hmasks.2.1, hmasks.2.2, isNone_some,
    Bool.false_eq_true, if_false, if_true, bind_some, or_none, Bool.not_false,
    Bool.and_true]
  show (a.transition qa c).bind _ = _
  cases a.transition qa c with
  | none => rfl
  | some ta =>
    show (if (b.transition qb c).isNone = true then none else some (some ta, b.transition qb c)) = _
    cases b.transition qb c <;> rfl

theorem walk2Next_subtract (qa : ℕ) (kb : Option ℕ) (c : Byte) :
    walk2Next a b (fsmWalk2OnlyA ||| fsmWalk2Both) (some qa, kb) c =
      (a.transition qa c).map fun ta => (some ta, kb.bind fun qb => b.transition qb c) := by
  have hmasks : (fsmWalk2OnlyA ||| fsmWalk2Both).allows fsmWalk2OnlyA = true ∧
      (fsmWalk2OnlyA ||| fsmWalk2Both).allows (fsmWalk2Both ||| fsmWalk2OnlyA) = true ∧
      (fsmWalk2OnlyA ||| fsmWalk2Both).allows fsmWalk2OnlyB = false := by decide
  unfold walk2Next walk2MoveA
  simp only [hmasks.1, hmasks.2.1, hmasks.2.2, Bool.not_true, Bool.and_false,
    Bool.false_eq_true, if_false, if_true, bind_some, or_none]
  show (a.transition qa c).bind _ = _
  cases a.transition qa c <;> rfl

/-- Intersection runs both operands, as long as both have an edge. -/
theorem runFrom_intersect (sa sb : ℕ) (w : List Byte) :
    Lib.runFrom (walk2Next a b fsmWalk2Both) (some sa, some sb) w =
      (Lib.runFrom a.transition sa w).bind fun p =>
        (Lib.runFrom b.transition sb w).map fun q => (some p, some q) := by
  induction w using List.reverseRecOn with
  | nil => rfl
  | append_singleton w c ih =>
    rw [runFrom_append_singleton, runFrom_append_singleton, runFrom_append_singleton, ih]
    cases Lib.runFrom a.transition sa w with
    | none => rfl
    | some p =>
      cases Lib.runFrom b.transition sb w with
      | none => simp
      | some q => exact walk2Next_intersect p q c

/-- Subtraction runs `a`, and beside it `b` as far as it gets. -/
theorem runFrom_subtract (sa sb : ℕ) (w : List Byte) :
    Lib.runFrom (walk2Next a b (fsmWalk2OnlyA ||| fsmWalk2Both)) (some sa, some sb) w =
      (Lib.runFrom a.transition sa w).map fun p => (some p, Lib.runFrom b.transition sb w) := by
  induction w using List.reverseRecOn with
  | nil => rfl
  | append_singleton w c ih =>
    rw [runFrom_append_singleton, runFrom_append_singleton, runFrom_append_singleton, ih]
    cases Lib.runFrom a.transition sa w with
    | none => rfl
    | some p => exact walk2Next_subtract p _ c

theorem pairIsEnd_intersect (p q : ℕ) :
    pairIsEnd a b fsmWalk2Both (some p, some q) = true ↔ a.IsEnd p ∧ b.IsEnd q := by
  have hmask : ∀ x y : Bool, fsmWalk2Both.allows (walk2mask x y) = (x && y) := by decide
  rw [pairIsEnd, hmask, Bool.and_eq_true]
  rfl

theorem pairIsEnd_subtract (p : ℕ) (kb : Option ℕ) :
    pairIsEnd a b fsmWalk2OnlyA (some p, kb) = true ↔ a.IsEnd p ∧ ¬ ∃ q ∈ kb, b.IsEnd q := by
  have hmask : ∀ x y : Bool, fsmWalk2OnlyA.allows (walk2mask x y) = (x && !y) := by decide
  rw [pairIsEnd, hmask, Bool.and_eq_true, Bool.not_eq_true', ← Bool.not_eq_true]
  refine and_congr Iff.rfl (not_congr ?_)
  cases kb with
  | none => simp [pairEnds]
  | some q => simp [pairEnds, Fsm.IsEnd, fsmIsend]

theorem mem_pairEndids : i ∈ pairEndids a b k ↔
    (∃ p ∈ k.1, a.IsEnd p ∧ i ∈ a.endidInfo.get p) ∨
      ∃ q ∈ k.2, b.IsEnd q ∧ i ∈ b.endidInfo.get q := by
  have hside : ∀ (f : Fsm) (o : Option ℕ),
      (i ∈ (if (o.any fun s => fsmIsend f s) = true then o.elim [] f.endidInfo.get else [])) ↔
        ∃ s ∈ o, f.IsEnd s ∧ i ∈ f.endidInfo.get s := by
    intro f o
    cases o with
    | none => simp
    | some s =>
      simp only [any_some, elim_some, mem_some_iff, exists_eq_left']
      split
      · rename_i hend
        exact (and_iff_right hend).symm
      · rename_i hend
        exact iff_of_false List.not_mem_nil fun h => hend h.1
  rw [pairEndids, List.mem_append]
  exact or_congr (hside a k.1) (hside b k.2)

theorem ensureDfa_of_isDfa (h : f.IsDfa) : ensureDfa f = some f :=
  if_pos (Fsm.isDfa_iff_fsmAll.mp h)

/-- The assertions hold for DFAs. -/
theorem fsmWalk2_of_isDfa (hda : a.IsDfa) (hdb : b.IsDfa) {edgemask endmask : Walk2Mask} :
    fsmWalk2 a b edgemask endmask = some (walk2Product a b edgemask endmask) :=
  if_pos ⟨Fsm.isDfa_iff_fsmAll.mp hda, Fsm.isDfa_iff_fsmAll.mp hdb⟩

variable (ha : a.Wf) (hb : b.Wf) (hda : a.IsDfa) (hdb : b.IsDfa) {sa sb : ℕ}
  (hsa : a.start = some sa) (hsb : b.start = some sb)

include ha hb hda hdb hsa hsb

/-- Intersection, with the transitions as they are read: in 24 bits. -/
theorem fsmIntersect_narrow :
    ∃ q, fsmIntersect a b = some q ∧ q.IsDfa ∧
      (∀ w, w ∈ q.language ↔ ∃ s t, Lib.runFrom a.transition sa w = some s ∧
        Lib.runFrom b.transition sb w = some t ∧ a.IsEnd s ∧ b.IsEnd t) ∧
      ∀ w i, i ∈ q.endIdsAfter w ↔ ∃ s t, Lib.runFrom a.transition sa w = some s ∧
        Lib.runFrom b.transition sb w = some t ∧ a.IsEnd s ∧ b.IsEnd t ∧
          (i ∈ a.endidInfo.get s ∨ i ∈ b.endidInfo.get t) := by
  obtain ⟨val, h⟩ := fsmWalk2_product ha hb hda hdb hsa hsb
  have hrun : ∀ {w k}, Lib.runFrom (walk2Next a b fsmWalk2Both) (some sa, some sb) w = some k ↔
      ∃ s t, Lib.runFrom a.transition sa w = some s ∧ Lib.runFrom b.transition sb w = some t ∧
        (some s, some t) = k := by
    intro w k
    rw [runFrom_intersect]
    simp only [bind_eq_some_iff, map_eq_some_iff, exists_and_left]
  refine ⟨walk2Product a b fsmWalk2Both fsmWalk2Both, ?_, h.isDfa, fun w => ?_, fun w i => ?_⟩
  · rw [fsmIntersect, ensureDfa_of_isDfa hda, ensureDfa_of_isDfa hdb]
    exact fsmWalk2_of_isDfa hda hdb
  · rw [h.mem_language_iff]
    constructor
    · rintro ⟨k, hk, hend⟩
      obtain ⟨s, t, hs, ht, rfl⟩ := hrun.mp hk
      exact ⟨s, t, hs, ht, (pairIsEnd_intersect s t).mp hend⟩
    · intro ⟨s, t, hs, ht, hend⟩
      exact ⟨_, hrun.mpr ⟨s, t, hs, ht, rfl⟩, (pairIsEnd_intersect s t).mpr hend⟩
  · rw [h.mem_endIdsAfter_iff]
    constructor
    · rintro ⟨k, hk, hend, hi⟩
      obtain ⟨s, t, hs, ht, rfl⟩ := hrun.mp hk
      obtain ⟨hes, het⟩ := (pairIsEnd_intersect s t).mp hend
      refine ⟨s, t, hs, ht, hes, het, ?_⟩
      simpa [mem_pairEndids, hes, het] using hi
    · intro ⟨s, t, hs, ht, hes, het, hi⟩
      refine ⟨_, hrun.mpr ⟨s, t, hs, ht, rfl⟩, (pairIsEnd_intersect s t).mpr ⟨hes, het⟩, ?_⟩
      simpa [mem_pairEndids, hes, het] using hi

/-- Subtraction, with the transitions as they are read: in 24 bits. -/
theorem fsmSubtract_narrow :
    ∃ q, fsmSubtract a b = some q ∧ q.IsDfa ∧
      (∀ w, w ∈ q.language ↔ ∃ s, Lib.runFrom a.transition sa w = some s ∧ a.IsEnd s ∧
        ¬ ∃ t, Lib.runFrom b.transition sb w = some t ∧ b.IsEnd t) ∧
      ∀ w i, i ∈ q.endIdsAfter w ↔ ∃ s, Lib.runFrom a.transition sa w = some s ∧ a.IsEnd s ∧
        (¬ ∃ t, Lib.runFrom b.transition sb w = some t ∧ b.IsEnd t) ∧
          i ∈ a.endidInfo.get s := by
  obtain ⟨val, h⟩ := fsmWalk2_product ha hb hda hdb hsa hsb
  have hrun : ∀ {w k},
      Lib.runFrom (walk2Next a b (fsmWalk2OnlyA ||| fsmWalk2Both)) (some sa, some sb) w = some k ↔
        ∃ s, Lib.runFrom a.transition sa w = some s ∧
          (some s, Lib.runFrom b.transition sb w) = k := by
    intro w k
    rw [runFrom_subtract]
    simp only [map_eq_some_iff]
  refine ⟨walk2Product a b (fsmWalk2OnlyA ||| fsmWalk2Both) fsmWalk2OnlyA, ?_, h.isDfa,
    fun w => ?_, fun w i => ?_⟩
  · rw [fsmSubtract, ensureDfa_of_isDfa hda, ensureDfa_of_isDfa hdb]
    exact fsmWalk2_of_isDfa hda hdb
  · rw [h.mem_language_iff]
    constructor
    · rintro ⟨k, hk, hend⟩
      obtain ⟨s, hs, rfl⟩ := hrun.mp hk
      exact ⟨s, hs, (pairIsEnd_subtract s _).mp hend⟩
    · intro ⟨s, hs, hend⟩
      exact ⟨_, hrun.mpr ⟨s, hs, rfl⟩, (pairIsEnd_subtract s _).mpr hend⟩
  · rw [h.mem_endIdsAfter_iff]
    constructor
    · rintro ⟨k, hk, hend, hi⟩
      obtain ⟨s, hs, rfl⟩ := hrun.mp hk
      obtain ⟨hes, hnot⟩ := (pairIsEnd_subtract s _).mp hend
      refine ⟨s, hs, hes, hnot, ?_⟩
      rcases mem_pairEndids.mp hi with ⟨p, hp, -, hi⟩ | ⟨t, ht, het, -⟩
      · rwa [some.inj hp]
      · exact absurd ⟨t, ht, het⟩ hnot
    · intro ⟨s, hs, hes, hnot, hi⟩
      exact ⟨_, hrun.mpr ⟨s, hs, rfl⟩, (pairIsEnd_subtract s _).mpr ⟨hes, hnot⟩,
        mem_pairEndids.mpr (.inl ⟨s, rfl, hes, hi⟩)⟩

end Runs

/-- The end IDs of a DFA after a word. -/
theorem Fsm.IsDfa.mem_endIdsAfter_iff (h : f.IsDfa) {s₀ : ℕ} (hs₀ : f.start = some s₀) :
    i ∈ f.endIdsAfter w ↔
      ∃ s, f.runFrom s₀ w = some s ∧ f.IsEnd s ∧ i ∈ f.endidInfo.get s := by
  show (∃ s, f.Active w s ∧ f.IsEnd s ∧ i ∈ f.endidInfo.get s) ↔ _
  simp only [h.active_iff hs₀]

/-- **Intersection and subtraction are exact** for DFAs with start states whose state numbers
fit the 24 bits of an edge. -/
theorem fsmIntersect_fsmSubtract {a b : Fsm} (ha : a.Wf) (hb : b.Wf) (hda : a.IsDfa)
    (hdb : b.IsDfa) (hsa : a.start.isSome = true) (hsb : b.start.isSome = true)
    (hna : a.statecount ≤ 2 ^ 24) (hnb : b.statecount ≤ 2 ^ 24) :
    (∃ q, fsmIntersect a b = some q ∧ q.IsDfa ∧
      (∀ w, w ∈ q.language ↔ w ∈ a.language ∧ w ∈ b.language) ∧
      ∀ w ∈ q.language, q.endIdsAfter w = a.endIdsAfter w ∪ b.endIdsAfter w) ∧
    ∃ q, fsmSubtract a b = some q ∧ q.IsDfa ∧
      (∀ w, w ∈ q.language ↔ w ∈ a.language ∧ w ∉ b.language) ∧
      ∀ w ∈ q.language, q.endIdsAfter w = a.endIdsAfter w := by
  obtain ⟨sa, hsa⟩ := isSome_iff_exists.mp hsa
  obtain ⟨sb, hsb⟩ := isSome_iff_exists.mp hsb
  -- no destination is cut to 24 bits
  have hta := transition_eq_next ha hda hna
  have htb := transition_eq_next hb hdb hnb
  constructor
  · obtain ⟨q, hq, hdq, hlang, hids⟩ := fsmIntersect_narrow ha hb hda hdb hsa hsb
    rw [hta, htb] at hlang hids
    refine ⟨q, hq, hdq, fun w => ?_, fun w hw => ?_⟩
    · rw [hlang, hda.mem_language_iff hsa, hdb.mem_language_iff hsb]
      constructor
      · intro ⟨s, t, hs, ht, hes, het⟩
        exact ⟨⟨s, hs, hes⟩, t, ht, het⟩
      · intro ⟨⟨s, hs, hes⟩, t, ht, het⟩
        exact ⟨s, t, hs, ht, hes, het⟩
    · obtain ⟨s, t, hs, ht, hes, het⟩ := (hlang w).mp hw
      ext i
      rw [hids, Set.mem_union, hda.mem_endIdsAfter_iff hsa, hdb.mem_endIdsAfter_iff hsb]
      constructor
      · rintro ⟨s', t', hs', ht', hes', het', hi | hi⟩
        · exact .inl ⟨s', hs', hes', hi⟩
        · exact .inr ⟨t', ht', het', hi⟩
      · rintro (⟨s', hs', hes', hi⟩ | ⟨t', ht', het', hi⟩)
        · exact ⟨s', t, hs', ht, hes', het, .inl hi⟩
        · exact ⟨s, t', hs, ht', hes, het', .inr hi⟩
  · obtain ⟨q, hq, hdq, hlang, hids⟩ := fsmSubtract_narrow ha hb hda hdb hsa hsb
    rw [hta, htb] at hlang hids
    refine ⟨q, hq, hdq, fun w => ?_, fun w hw => ?_⟩
    · rw [hlang, hda.mem_language_iff hsa, hdb.mem_language_iff hsb]
      constructor
      · intro ⟨s, hs, hes, hnot⟩
        exact ⟨⟨s, hs, hes⟩, hnot⟩
      · intro ⟨⟨s, hs, hes⟩, hnot⟩
        exact ⟨s, hs, hes, hnot⟩
    · obtain ⟨-, -, -, hnot⟩ := (hlang w).mp hw
      ext i
      rw [hids, hda.mem_endIdsAfter_iff hsa]
      constructor
      · intro ⟨s, hs, hes, _, hi⟩
        exact ⟨s, hs, hes, hi⟩
      · intro ⟨s, hs, hes, hi⟩
        exact ⟨s, hs, hes, hnot, hi⟩

/-- One edge on `a`, from state 0 to the last of `n + 2` states, which is the end state. -/
def farEdgeFsm (n : ℕ) : Fsm :=
  fsmSetstart (fsmSetend (fsmAddedgeLiteral (fsmAddstateBulk fsmNew (n + 2)) 0 (n + 1) 97)
    (n + 1) true) 0

theorem farEdgeFsm_statecount (n : ℕ) : (farEdgeFsm n).statecount = n + 2 := by
  show (fsmSetend (fsmAddedgeLiteral (fsmAddstateBulk fsmNew (n + 2)) 0 (n + 1) 97)
    (n + 1) true).statecount = n + 2
  simp [fsmAddedgeLiteral, fsmNew]

theorem farEdgeFsm_state (n s : ℕ) : (farEdgeFsm n).state s =
    if s = n + 1 then { FsmState.fresh with isEnd := true }
    else if s = 0 then { FsmState.fresh with edges := edgeSetAdd .null 97 (n + 1) }
    else .fresh := by
  have hfresh : ∀ p, (fsmAddstateBulk fsmNew (n + 2)).state p = .fresh := by
    intro p
    rw [state_fsmAddstateBulk]
    exact Fsm.state_of_le (Nat.zero_le p)
  have hcount : (fsmAddstateBulk fsmNew (n + 2)).statecount = n + 2 := by simp [fsmNew]
  show (fsmSetend (fsmAddedgeLiteral (fsmAddstateBulk fsmNew (n + 2)) 0 (n + 1) 97)
    (n + 1) true).state s = _
  rw [state_fsmSetend]
  unfold fsmAddedgeLiteral
  rw [Fsm.statecount_modifyState, Fsm.state_modifyState_ne (Nat.succ_ne_zero n), hfresh]
  by_cases hs : s = n + 1
  · rw [if_pos ⟨hs, by omega⟩, if_pos hs]
  · rw [if_neg fun h => hs h.1, if_neg hs, Fsm.state_modifyState, hfresh, hfresh]
    simp

theorem farEdgeFsm_edge : (farEdgeFsm n).Edge s c t ↔ s = 0 ∧ c = 97 ∧ t = n + 1 := by
  rw [Fsm.Edge, farEdgeFsm_state]
  split
  · rename_i hs
    simp [hs]
  · split
    · rename_i hs
      simp [hs, and_comm]
    · rename_i hs
      simp [hs]

theorem farEdgeFsm_isEnd : (farEdgeFsm n).IsEnd s ↔ s = n + 1 := by
  rw [Fsm.IsEnd, farEdgeFsm_state]
  split
  · rename_i hs
    simp [hs]
  · rename_i hs
    split <;> simp [hs]

theorem farEdgeFsm_eps : ¬ (farEdgeFsm n).Eps s t := by
  rw [Fsm.Eps, farEdgeFsm_state]
  split
  · exact notMem_null t
  · split <;> exact notMem_null t

theorem farEdgeFsm_wf (n : ℕ) : (farEdgeFsm n).Wf := by
  obtain ⟨alloc, hbulk⟩ := fsmAddstateBulk_eq fsmNew (n + 2)
  refine ⟨fun hs => ?_, fun he => ?_, fun he => absurd he farEdgeFsm_eps, ?_, ?_⟩
  · rw [farEdgeFsm_statecount, ← some.inj hs]
    exact Nat.succ_pos _
  · rw [farEdgeFsm_statecount, (farEdgeFsm_edge.mp he).2.2]
    exact Nat.lt_succ_self _
  · have hids : (farEdgeFsm n).endidInfo = ∅ := by
      show (fsmSetend _ (n + 1) true).endidInfo = ∅
      rw [endidInfo_fsmSetend, fsmAddedgeLiteral, hbulk]
      rfl
    rw [hids]
    exact fun s _ => IdTable.get_empty s
  · have hids : (farEdgeFsm n).eagerOutputInfo = ∅ := by
      show (fsmSetend _ (n + 1) true).eagerOutputInfo = ∅
      rw [eagerOutputInfo_fsmSetend, hbulk]
      rfl
    rw [hids]
    exact fun s _ => IdTable.get_empty s

theorem farEdgeFsm_isDfa (n : ℕ) : (farEdgeFsm n).IsDfa := by
  refine Fsm.isDfa_iff.mpr ⟨fun _ => rfl, fun s t => farEdgeFsm_eps, fun s c t t' ht ht' => ?_⟩
  rw [(farEdgeFsm_edge.mp ht).2.2, (farEdgeFsm_edge.mp ht').2.2]

theorem farEdgeFsm_accepts (n : ℕ) : [97] ∈ (farEdgeFsm n).language := by
  have hbase : (farEdgeFsm n).Active [] 0 := .base rfl
  have hstep : (farEdgeFsm n).Active ([] ++ [97]) (n + 1) :=
    .symbol hbase (farEdgeFsm_edge.mpr ⟨rfl, rfl, rfl⟩)
  exact Fsm.mem_language_iff.mpr ⟨n + 1, hstep, farEdgeFsm_isEnd.mpr rfl⟩

/-- State number `2 ^ 24` is read as 0, so the walk stays at the start state of the first
operand, and the word that both operands accept is lost. -/
theorem fsmIntersect_loses_word :
    ∃ q, fsmIntersect (farEdgeFsm (2 ^ 24 - 1)) (farEdgeFsm 0) = some q ∧
      [97] ∈ (farEdgeFsm (2 ^ 24 - 1)).language ∧ [97] ∈ (farEdgeFsm 0).language ∧
      [97] ∉ q.language := by
  obtain ⟨q, hq, -, hlang, -⟩ := fsmIntersect_narrow (farEdgeFsm_wf (2 ^ 24 - 1))
    (farEdgeFsm_wf 0) (farEdgeFsm_isDfa _) (farEdgeFsm_isDfa 0) rfl rfl
  refine ⟨q, hq, farEdgeFsm_accepts _, farEdgeFsm_accepts 0, fun hw => ?_⟩
  obtain ⟨s, -, hs, -, hend, -⟩ := (hlang [97]).mp hw
  rw [farEdgeFsm_isEnd] at hend
  have hstep : (farEdgeFsm (2 ^ 24 - 1)).transition 0 97 = some s := by
    rw [← hs, ← List.nil_append [(97 : Byte)], runFrom_append_singleton, runFrom_nil, bind_some]
  obtain ⟨t, ht, rfl⟩ :=
    (edgeSetTransition_eq_some_iff ((farEdgeFsm_isDfa (2 ^ 24 - 1)).functional 0)).mp hstep
  obtain ⟨-, -, rfl⟩ := farEdgeFsm_edge.mp ht
  exact absurd hend (by decide)

theorem fsmIntersect_fsmSubtract_farEdge :
    ∃ q, fsmIntersect (farEdgeFsm 0) (farEdgeFsm 1) = some q ∧ [97] ∈ q.language := by
  obtain ⟨⟨q, hq, -, hlang, -⟩, -⟩ := fsmIntersect_fsmSubtract (farEdgeFsm_wf 0)
    (farEdgeFsm_wf 1) (farEdgeFsm_isDfa 0) (farEdgeFsm_isDfa 1) rfl rfl
    (by rw [farEdgeFsm_statecount]; norm_num) (by rw [farEdgeFsm_statecount]; norm_num)
  exact ⟨q, hq, (hlang [97]).mpr ⟨farEdgeFsm_accepts 0, farEdgeFsm_accepts 1⟩⟩

end Libfsm
