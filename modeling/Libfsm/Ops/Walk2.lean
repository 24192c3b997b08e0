import Mathlib.Data.Prod.Lex
import Mathlib.Order.WithBot
import Mathlib.Data.Finset.Option
import Libfsm.Ops.Clone

/-!
# The Product Walk

`fsm_walk2` of `walk2.c` walks two DFAs together and builds the FSM of the pairs it meets.
Two masks of four bits say which edges are followed and which pairs are end states.
`fsm_intersect` and `fsm_subtract` are this walk with different masks.

- `walk2Moves`: the edges followed out of a pair, by the two loops of `fsm_walk2_edges`
- `walk2Edges`: the depth-first walk
- `Walked`: what the walk below one pair does to the FSM under construction
- `fsmWalk2_spec`: the result realises the product of the two transition functions

The destinations come from `edge_set_transition`, which cuts them to the 24 bits of
`struct fsm_edge`.  The walk is exact for the transition functions it reads that way, and
these are the operands' own when the operands have at most `2 ^ 24` states.
-/

namespace Libfsm

open Lib
open List hiding nil cons

variable {comb p qc : ℕ}

/-! ## §1 Tuples And Masks -/

/-- The states of a combined state; a side that is absent is `none`. -/
abbrev StatePair := Option ℕ × Option ℕ

/-- `struct fsm_walk2_tuple` -/
structure Walk2Tuple where
  /-- `a` and `b`, where `have_a` and `have_b` -/
  pair : StatePair
  /-- The state of the combined FSM -/
  comb : ℕ
  deriving DecidableEq, Repr

/-- The order of `cmp_walk2_tuple`: an absent state before all others, `a` before `b`. -/
def StatePair.key (k : StatePair) : Lex (WithBot ℕ × WithBot ℕ) := toLex k

def Walk2Tuple.key (t : Walk2Tuple) : Lex (WithBot ℕ × WithBot ℕ) := StatePair.key t.pair

theorem StatePair.key_injective {k k' : StatePair} (h : k.key = k'.key) : k = k' :=
  toLex.injective h

/-- The two 4-bit tables `edgemask` and `endmask`. -/
abbrev Walk2Mask := BitVec 4

def fsmWalk2Neither : Walk2Mask := 0x1
def fsmWalk2OnlyB : Walk2Mask := 0x2
def fsmWalk2OnlyA : Walk2Mask := 0x4
def fsmWalk2Both : Walk2Mask := 0x8

def walk2mask (hasA hasB : Bool) : Walk2Mask :=
  if hasA then
    if hasB then fsmWalk2Both else fsmWalk2OnlyA
  else
    if hasB then fsmWalk2OnlyB else fsmWalk2Neither

/-- The test `mask & bits`. -/
def Walk2Mask.allows (mask bits : Walk2Mask) : Bool := mask &&& bits != 0

/-- `struct fsm_walk2_data`, without its masks: the FSM under construction and the tuples
met so far. -/
structure Walk2Data where
  new : Fsm
  states : SortedArray Walk2Tuple Walk2Tuple.key

/-! ## §2 The Walk -/

def walk2CombState (new : Fsm) (isEnd : Bool) : ℕ × Fsm :=
  let (comb, new) := fsmAddstate new
  (comb, if isEnd then fsmSetend new comb true else new)

section Walk

variable (a b : Fsm)

/-- `fsm_a != NULL && fsm_isend(fsm_a, a)`, and the same for `b`. -/
def pairEnds (k : StatePair) : Bool × Bool :=
  (k.1.any fun s => fsmIsend a s, k.2.any fun s => fsmIsend b s)

/-- The end IDs of the sides that are end states. -/
def pairEndids (k : StatePair) : List ℕ :=
  (if (pairEnds a b k).1 then k.1.elim [] a.endidInfo.get else []) ++
    if (pairEnds a b k).2 then k.2.elim [] b.endidInfo.get else []

/-- `is_end`: whether a pair is an end state of the product. -/
def pairIsEnd (endmask : Walk2Mask) (k : StatePair) : Bool :=
  endmask.allows (walk2mask (pairEnds a b k).1 (pairEnds a b k).2)

/-- The end IDs of a new combined state, set if there are any. -/
def walk2SetEndids (new : Fsm) (comb : ℕ) (isEnd : Bool) (ids : List ℕ) : Fsm :=
  if isEnd && !ids.isEmpty then
    { new with endidInfo := endidSetBulk new.endidInfo comb ids .replace }
  else new

/-- `fsm_walk2_tuple_new`: the tuple of a pair, with a new combined state if the pair is
met for the first time. -/
def fsmWalk2TupleNew (endmask : Walk2Mask) (d : Walk2Data) (k : StatePair) :
    Walk2Tuple × Walk2Data :=
  match d.states.find k.key with
  | some q => (q, d)
  | none =>
    let isEnd := pairIsEnd a b endmask k
    let (comb, new) := walk2CombState d.new isEnd
    let new := walk2SetEndids new comb isEnd (pairEndids a b k)
    (⟨k, comb⟩, ⟨new, d.states.add ⟨k, comb⟩⟩)

/-- The edge followed on a symbol by the first loop, over the edges of `a`. -/
def walk2MoveA (edgemask : Walk2Mask) (k : StatePair) (c : Byte) : Option StatePair :=
  k.1.bind fun qa =>
    (edgeSetTransition (a.state qa).edges c).bind fun eas =>
      let ebs := k.2.bind fun qb => edgeSetTransition (b.state qb).edges c
      -- without an edge in `b`, only if ONLYA edges are allowed
      if ebs.isNone && !edgemask.allows fsmWalk2OnlyA then none else some (some eas, ebs)

/-- The edge followed on a symbol by the second loop, over the edges of `b`. -/
def walk2MoveB (k : StatePair) (c : Byte) : Option StatePair :=
  k.2.bind fun qb =>
    (edgeSetTransition (b.state qb).edges c).bind fun ebs =>
      if k.1.any fun qa => edgeSetContains (a.state qa).edges c then none
      else some (none, some ebs)

/-- The edges `fsm_walk2_edges` follows out of a pair, in order. -/
def walk2Moves (edgemask : Walk2Mask) (k : StatePair) : List (Byte × StatePair) :=
  if k.2.isNone && !edgemask.allows fsmWalk2OnlyA then []
  else
    (if edgemask.allows (fsmWalk2Both ||| fsmWalk2OnlyA) then
      (finRange 256).filterMap fun c => (walk2MoveA a b edgemask k c).map (c, ·)
    else []) ++
    if edgemask.allows fsmWalk2OnlyB then
      (finRange 256).filterMap fun c => (walk2MoveB a b k c).map (c, ·)
    else []

/-- `data->new->states[comb].visited = 1` -/
def Walk2Data.mark (d : Walk2Data) (comb : ℕ) : Walk2Data :=
  { d with new := d.new.modifyState comb fun st => { st with visited := true } }

/-- `fsm_addedge_literal(data->new, qc, comb, c)` -/
def Walk2Data.addEdge (d : Walk2Data) (qc comb : ℕ) (c : Byte) : Walk2Data :=
  { d with new := fsmAddedgeLiteral d.new qc comb c }

/-- `data->new->states[comb].visited` -/
def Walk2Data.Visited (d : Walk2Data) (comb : ℕ) : Prop := (d.new.state comb).visited = true

instance (d : Walk2Data) (comb : ℕ) : Decidable (d.Visited comb) :=
  inferInstanceAs (Decidable ((d.new.state comb).visited = true))

/-- The body of both loops: the destination's tuple, the edge, and the walk below it if it
has not been visited. -/
def walk2Follow (endmask : Walk2Mask) (walk : Walk2Data → Walk2Tuple → Walk2Data) (qc : ℕ)
    (d : Walk2Data) (m : Byte × StatePair) : Walk2Data :=
  let (dst, d) := fsmWalk2TupleNew a b endmask d m.2
  let d := d.addEdge qc dst.comb m.1
  if d.Visited dst.comb then d else walk d dst

def fsmWalk2Edges (edgemask endmask : Walk2Mask) : ℕ → Walk2Data → Walk2Tuple → Walk2Data
  -- the recursion goes to combined states not visited before; `fuel` bounds its depth
  | 0, d, _ => d
  | fuel + 1, d, start =>
    if d.Visited start.comb then d
    else
      (walk2Moves a b edgemask start.pair).foldl
        (walk2Follow a b endmask (fsmWalk2Edges edgemask endmask fuel) start.comb)
        (d.mark start.comb)

end Walk

/-! ## §3 One Tuple -/

variable {d : Walk2Data} {t : Walk2Tuple}

section Invariant

variable {a b : Fsm} {edgemask endmask : Walk2Mask} {B : Finset StatePair}

/-- All pairs that the walk can meet. -/
def pairBound (a b : Fsm) : Finset StatePair :=
  Finset.insertNone (Finset.range a.statecount) ×ˢ Finset.insertNone (Finset.range b.statecount)

theorem card_pairBound : (pairBound a b).card = (a.statecount + 1) * (b.statecount + 1) := by
  simp [pairBound]

/-- What holds of the data at every point of the walk.  The pairs met lie in a set `B` that is
closed under the moves. -/
structure Walk2Inv (a b : Fsm) (endmask : Walk2Mask) (B : Finset StatePair) (d : Walk2Data) :
    Prop where
  count : d.states.entries.length = d.new.statecount
  comb_lt : ∀ {t}, t ∈ d.states.entries → t.comb < d.new.statecount
  comb_inj : ∀ {t t'}, t ∈ d.states.entries → t' ∈ d.states.entries → t.comb = t'.comb → t = t'
  covers : ∀ {p}, p < d.new.statecount → ∃ t ∈ d.states.entries, t.comb = p
  bounded : ∀ {t}, t ∈ d.states.entries → t.pair ∈ B
  isEnd : ∀ {t}, t ∈ d.states.entries →
    (d.new.IsEnd t.comb ↔ pairIsEnd a b endmask t.pair = true)
  endids : ∀ {t}, t ∈ d.states.entries → ∀ i, i ∈ d.new.endidInfo.get t.comb ↔
    pairIsEnd a b endmask t.pair = true ∧ i ∈ pairEndids a b t.pair
  endids_below : d.new.endidInfo.Below d.new.statecount
  eager : d.new.eagerOutputInfo = ∅
  not_eps : ∀ s t, ¬ d.new.Eps s t
  edge_lt : ∀ {p c q}, d.new.Edge p c q → q < d.new.statecount
  edge_visited : ∀ {p c q}, d.new.Edge p c q → d.Visited p

theorem Walk2Inv.pair_inj {t' : Walk2Tuple} (ht : t ∈ d.states.entries)
    (ht' : t' ∈ d.states.entries) (h : t.pair = t'.pair) : t = t' :=
  d.states.eq_of_key_eq ht ht' (congrArg StatePair.key h)

/-- There are no more combined states than pairs. -/
theorem Walk2Inv.statecount_le (h : Walk2Inv a b endmask B d) : d.new.statecount ≤ B.card := by
  rw [← h.count, ← length_map Walk2Tuple.pair]
  have hnodup : (d.states.entries.map Walk2Tuple.pair).Nodup := by
    rw [List.Nodup, pairwise_map]
    apply d.states.ascending.imp
    intro t t' hlt heq
    exact absurd (congrArg StatePair.key heq) hlt.ne
  rw [← toFinset_card_of_nodup hnodup]
  apply Finset.card_le_card
  intro k hk
  obtain ⟨t, ht, rfl⟩ := mem_map.mp (mem_toFinset.mp hk)
  exact h.bounded ht

/-- The states of a new combined state: a fresh one, perhaps an end state. -/
theorem state_walk2CombState (new : Fsm) (isEnd : Bool) (p : ℕ) :
    (walk2CombState new isEnd).2.state p =
      if p = new.statecount then { FsmState.fresh with isEnd := isEnd } else new.state p := by
  cases isEnd with
  | false =>
    show (fsmAddstate new).2.state p = _
    rw [state_fsmAddstate]
    split
    · rename_i hp
      rw [Fsm.state_of_le hp.ge]
      rfl
    · rfl
  | true =>
    show (fsmSetend (fsmAddstate new).2 new.statecount true).state p = _
    rw [state_fsmSetend, statecount_fsmAddstate, state_fsmAddstate, state_fsmAddstate]
    split
    · rename_i hp
      rw [if_pos hp.1, Fsm.state_of_le le_rfl]
    · rename_i hp
      rw [if_neg fun h => hp ⟨h, Nat.lt_succ_self _⟩]

theorem fields_walk2CombState (new : Fsm) (isEnd : Bool) :
    (walk2CombState new isEnd).1 = new.statecount ∧
      (walk2CombState new isEnd).2.statecount = new.statecount + 1 ∧
      (walk2CombState new isEnd).2.start = new.start ∧
      (walk2CombState new isEnd).2.endidInfo = new.endidInfo ∧
      (walk2CombState new isEnd).2.eagerOutputInfo = new.eagerOutputInfo := by
  unfold walk2CombState
  cases isEnd <;> simp [statecount_fsmAddstate]

theorem fields_walk2SetEndids (new : Fsm) (comb : ℕ) (isEnd : Bool) (ids : List ℕ) :
    (walk2SetEndids new comb isEnd ids).states = new.states ∧
      (walk2SetEndids new comb isEnd ids).start = new.start ∧
      (walk2SetEndids new comb isEnd ids).eagerOutputInfo = new.eagerOutputInfo := by
  unfold walk2SetEndids
  split <;> exact ⟨rfl, rfl, rfl⟩

/-- The end IDs written for a new combined state. -/
theorem mem_get_walk2SetEndids {new : Fsm} {n : ℕ} (hn : new.endidInfo.Below n) (isEnd : Bool)
    (ids : List ℕ) (p i : ℕ) :
    i ∈ (walk2SetEndids new n isEnd ids).endidInfo.get p ↔
      if p = n then isEnd = true ∧ i ∈ ids else i ∈ new.endidInfo.get p := by
  unfold walk2SetEndids
  split
  · rename_i hset
    rw [Bool.and_eq_true] at hset
    rw [endidSetBulk, IdTable.get_insert]
    split
    · rw [mem_sortDedup]
      exact (and_iff_right hset.1).symm
    · rfl
  · rename_i hset
    split
    · rename_i hp
      -- either no end state or no IDs: nothing is written
      rw [hn p hp.ge]
      have hno : ¬ (isEnd = true ∧ i ∈ ids) := by
        rintro ⟨he, hi⟩
        apply hset
        rw [he, Bool.true_and, Bool.not_eq_true', isEmpty_eq_false_iff]
        exact ne_nil_of_mem hi
      exact iff_of_false not_mem_nil hno
    · rfl

/-- The FSM with a new combined state for a pair. -/
structure CombinedAdded (a b : Fsm) (endmask : Walk2Mask) (new : Fsm) (k : StatePair)
    (g : Fsm) : Prop where
  count : g.statecount = new.statecount + 1
  start : g.start = new.start
  eager : g.eagerOutputInfo = new.eagerOutputInfo
  state_old : ∀ p, p ≠ new.statecount → g.state p = new.state p
  state_new : g.state new.statecount =
    { FsmState.fresh with isEnd := pairIsEnd a b endmask k }
  endids : ∀ p i, i ∈ g.endidInfo.get p ↔ if p = new.statecount then
    pairIsEnd a b endmask k = true ∧ i ∈ pairEndids a b k else i ∈ new.endidInfo.get p

theorem combinedAdded (a b : Fsm) (endmask : Walk2Mask) {new : Fsm}
    (hnew : new.endidInfo.Below new.statecount) (k : StatePair) :
    CombinedAdded a b endmask new k
      (walk2SetEndids (walk2CombState new (pairIsEnd a b endmask k)).2 new.statecount
        (pairIsEnd a b endmask k) (pairEndids a b k)) := by
  obtain ⟨-, hcount, hstart, hids, heager⟩ := fields_walk2CombState new (pairIsEnd a b endmask k)
  have hcomb := state_walk2CombState new (pairIsEnd a b endmask k)
  generalize (walk2CombState new (pairIsEnd a b endmask k)).2 = g at *
  obtain ⟨hstates, hstart', heager'⟩ := fields_walk2SetEndids g new.statecount
    (pairIsEnd a b endmask k) (pairEndids a b k)
  have hstate : ∀ p, (walk2SetEndids g new.statecount (pairIsEnd a b endmask k)
      (pairEndids a b k)).state p = g.state p := by
    intro p
    rw [Fsm.state, hstates, Fsm.state]
  have hbelow : g.endidInfo.Below new.statecount := by rwa [hids]
  refine ⟨?_, hstart'.trans hstart, heager'.trans heager, fun p hp => ?_, ?_, fun p i => ?_⟩
  · rw [Fsm.statecount, hstates]
    exact hcount
  · rw [hstate, hcomb, if_neg hp]
  · rw [hstate, hcomb, if_pos rfl]
  · rw [mem_get_walk2SetEndids hbelow, hids]

/-- What `fsm_walk2_tuple_new` does: at most one tuple more, for the pair. -/
structure TupleAdded (a b : Fsm) (endmask : Walk2Mask) (B : Finset StatePair) (d : Walk2Data)
    (k : StatePair) (t : Walk2Tuple) (d' : Walk2Data) : Prop where
  inv : Walk2Inv a b endmask B d'
  pair : t.pair = k
  mem : t ∈ d'.states.entries
  start : d'.new.start = d.new.start
  entries : ∀ {t'}, t' ∈ d'.states.entries ↔ t' = t ∨ t' ∈ d.states.entries
  count : d.new.statecount ≤ d'.new.statecount
  edges : ∀ p, (d'.new.state p).edges = (d.new.state p).edges
  visited : ∀ p, (d'.new.state p).visited = (d.new.state p).visited

theorem CombinedAdded.tupleAdded (h : Walk2Inv a b endmask B d) {k : StatePair} {g : Fsm}
    (hadd : CombinedAdded a b endmask d.new k g) (hk : k ∈ B) (hfind : d.states.find k.key = none) :
    TupleAdded a b endmask B d k ⟨k, d.new.statecount⟩
      ⟨g, d.states.add ⟨k, d.new.statecount⟩⟩ := by
  -- the pair is new, and so is its combined state: it has the next number
  have hnew : ∀ t ∈ d.states.entries, t.key ≠ Walk2Tuple.key ⟨k, d.new.statecount⟩ :=
    SortedArray.find_eq_none_iff.mp hfind
  have hmem : ∀ {t}, t ∈ (d.states.add ⟨k, d.new.statecount⟩).entries ↔
      t = ⟨k, d.new.statecount⟩ ∨ t ∈ d.states.entries := SortedArray.mem_add hnew
  have hne : ∀ {t}, t ∈ d.states.entries → t.comb ≠ d.new.statecount :=
    fun ht => (h.comb_lt ht).ne
  have hfresh : d.new.state d.new.statecount = .fresh := Fsm.state_of_le le_rfl
  -- a fresh state has neither edges nor a mark, so nothing changes there
  have hedges : ∀ p, (g.state p).edges = (d.new.state p).edges := by
    intro p
    by_cases hp : p = d.new.statecount
    · rw [hp, hadd.state_new, hfresh]
    · rw [hadd.state_old p hp]
  have hvis : ∀ p, (g.state p).visited = (d.new.state p).visited := by
    intro p
    by_cases hp : p = d.new.statecount
    · rw [hp, hadd.state_new, hfresh]
    · rw [hadd.state_old p hp]
  refine ⟨?_, rfl, hmem.mpr (.inl rfl), hadd.start, hmem, ?_, hedges, hvis⟩
  · constructor
    case count => rw [SortedArray.length_add hnew, h.count, hadd.count]
    case comb_lt =>
      intro t ht
      rw [hadd.count]
      rcases hmem.mp ht with rfl | ht
      · exact Nat.lt_succ_self _
      · exact Nat.lt_succ_of_lt (h.comb_lt ht)
    -- old combined states lie below the new one
    case comb_inj =>
      intro t t' ht ht' heq
      rcases hmem.mp ht with rfl | ht
      · rcases hmem.mp ht' with rfl | ht'
        · rfl
        · exact absurd heq.symm (hne ht')
      · rcases hmem.mp ht' with rfl | ht'
        · exact absurd heq (hne ht)
        · exact h.comb_inj ht ht' heq
    case covers =>
      intro p hp
      by_cases hpn : p = d.new.statecount
      · exact ⟨_, hmem.mpr (.inl rfl), hpn.symm⟩
      · obtain ⟨t, ht, rfl⟩ := h.covers (p := p) (by have := hadd.count; simp only at hp; omega)
        exact ⟨t, hmem.mpr (.inr ht), rfl⟩
    case bounded =>
      intro t ht
      rcases hmem.mp ht with rfl | ht
      · exact hk
      · exact h.bounded ht
    -- what is said of one tuple is said of the new one by `hadd`, of the others by `h`
    case isEnd =>
      intro t ht
      rcases hmem.mp ht with rfl | ht
      · rw [Fsm.IsEnd, hadd.state_new]
      · rw [Fsm.IsEnd, hadd.state_old _ (hne ht)]
        exact h.isEnd ht
    case endids =>
      intro t ht i
      rw [hadd.endids]
      rcases hmem.mp ht with rfl | ht
      · rw [if_pos rfl]
      · rw [if_neg (hne ht)]
        exact h.endids ht i
    case endids_below =>
      intro p hp
      rw [hadd.count] at hp
      apply eq_nil_iff_forall_not_mem.mpr
      intro i hi
      rw [hadd.endids, if_neg (by omega), h.endids_below p (by omega)] at hi
      cases hi
    case eager => exact hadd.eager.trans h.eager
    case not_eps =>
      intro s t hst
      rw [Fsm.Eps] at hst
      by_cases hs : s = d.new.statecount
      · rw [hs, hadd.state_new] at hst
        exact absurd hst (notMem_null t)
      · rw [hadd.state_old s hs] at hst
        exact h.not_eps s t hst
    case edge_lt =>
      intro p c q he
      rw [Fsm.Edge, hedges] at he
      rw [hadd.count]
      exact Nat.lt_succ_of_lt (h.edge_lt he)
    case edge_visited =>
      intro p c q he
      rw [Fsm.Edge, hedges] at he
      rw [Walk2Data.Visited, hvis]
      exact h.edge_visited he
  · rw [hadd.count]
    exact Nat.le_succ _

theorem fsmWalk2TupleNew_added (h : Walk2Inv a b endmask B d) {k : StatePair} (hk : k ∈ B) :
    TupleAdded a b endmask B d k (fsmWalk2TupleNew a b endmask d k).1
      (fsmWalk2TupleNew a b endmask d k).2 := by
  unfold fsmWalk2TupleNew
  cases hfind : d.states.find k.key with
  | some q =>
    obtain ⟨hq, hkey⟩ := SortedArray.find_eq_some_iff.mp hfind
    refine ⟨h, StatePair.key_injective hkey, hq, rfl, ?_, le_rfl, fun _ => rfl, fun _ => rfl⟩
    exact ⟨.inr, fun ht => ht.elim (fun ht => ht ▸ hq) fun ht => ht⟩
  | none =>
    have hadd := combinedAdded a b endmask h.endids_below k
    exact hadd.tupleAdded h hk hfind

/-! ## §4 The Walk Below One Pair -/

/-- A combined state has exactly the edges of its pair, all to visited states. -/
structure Walk2Data.Complete (a b : Fsm) (edgemask : Walk2Mask) (d : Walk2Data)
    (t : Walk2Tuple) : Prop where
  edge : ∀ {c q}, d.new.Edge t.comb c q →
    ∃ k, (c, k) ∈ walk2Moves a b edgemask t.pair ∧ ⟨k, q⟩ ∈ d.states.entries
  exists_edge : ∀ {c k}, (c, k) ∈ walk2Moves a b edgemask t.pair →
    ∃ q, ⟨k, q⟩ ∈ d.states.entries ∧ d.Visited q ∧ d.new.Edge t.comb c q

/-- What a part of the walk does.  The states visited before keep their edges, except for
those that are `busy`, whose loop the part belongs to.  The others it visits are complete
when it ends, and it leaves no new state unvisited. -/
structure Walked (a b : Fsm) (edgemask endmask : Walk2Mask) (B : Finset StatePair) (busy : Set ℕ)
    (d d' : Walk2Data) : Prop where
  inv : Walk2Inv a b endmask B d'
  start : d'.new.start = d.new.start
  entries : ∀ {t}, t ∈ d.states.entries → t ∈ d'.states.entries
  count : d.new.statecount ≤ d'.new.statecount
  visited : ∀ {p}, d.Visited p → d'.Visited p
  keep : ∀ {p}, d.Visited p → p ∉ busy → ∀ c q, d'.new.Edge p c q ↔ d.new.Edge p c q
  complete : ∀ {t}, t ∈ d'.states.entries → ¬ d.Visited t.comb → d'.Visited t.comb →
    d'.Complete a b edgemask t
  fresh : ∀ {t}, t ∈ d'.states.entries → t ∉ d.states.entries → d'.Visited t.comb

theorem Walked.refl {busy : Set ℕ} (h : Walk2Inv a b endmask B d) :
    Walked a b edgemask endmask B busy d d :=
  ⟨h, rfl, id, le_rfl, id, fun _ _ _ _ => Iff.rfl, fun _ hno hvis => absurd hvis hno,
    fun ht hno => absurd ht hno⟩

/-- A state that was visited has a tuple. -/
theorem Walk2Inv.mem_of_visited (h : Walk2Inv a b endmask B d) {d' : Walk2Data}
    (h' : Walk2Inv a b endmask B d') (hsub : ∀ {t}, t ∈ d.states.entries → t ∈ d'.states.entries)
    (ht : t ∈ d'.states.entries) (hvis : d.Visited t.comb) : t ∈ d.states.entries := by
  have hlt : t.comb < d.new.statecount := by
    apply Fsm.lt_of_state_ne
    intro hfresh
    rw [Walk2Data.Visited, hfresh] at hvis
    exact absurd hvis (by decide)
  obtain ⟨t', ht', hcomb⟩ := h.covers hlt
  rwa [h'.comb_inj ht (hsub ht') hcomb.symm]

theorem Walked.trans {busy : Set ℕ} {d₁ d₂ : Walk2Data} (hbusy : ∀ p ∈ busy, d.Visited p)
    (h₁ : Walked a b edgemask endmask B busy d d₁) (h₂ : Walked a b edgemask endmask B busy d₁ d₂) :
    Walked a b edgemask endmask B busy d d₂ where
  inv := h₂.inv
  start := h₂.start.trans h₁.start
  entries ht := h₂.entries (h₁.entries ht)
  count := h₁.count.trans h₂.count
  visited hp := h₂.visited (h₁.visited hp)
  keep hp hb c q := (h₂.keep (h₁.visited hp) hb c q).trans (h₁.keep hp hb c q)
  complete {t} ht hno hvis := by
    by_cases hmid : d₁.Visited t.comb
    · -- complete already after the first part, and kept by the second
      have ht₁ := h₁.inv.mem_of_visited h₂.inv h₂.entries ht hmid
      have hc := h₁.complete ht₁ hno hmid
      have hkeep := h₂.keep hmid fun hb => hno (hbusy _ hb)
      constructor
      · intro c q he
        obtain ⟨k, hk, hq⟩ := hc.edge ((hkeep c q).mp he)
        exact ⟨k, hk, h₂.entries hq⟩
      · intro c k hk
        obtain ⟨q, hq, hqv, he⟩ := hc.exists_edge hk
        exact ⟨q, h₂.entries hq, h₂.visited hqv, (hkeep c q).mpr he⟩
    · exact h₂.complete ht hmid hvis
  fresh {t} ht hno := by
    by_cases hmid : t ∈ d₁.states.entries
    · exact h₂.visited (h₁.fresh hmid hno)
    · exact h₂.fresh ht hmid

/-- The number of combined states visited so far. -/
def Walk2Data.visitedCount (d : Walk2Data) : ℕ :=
  ((Finset.range d.new.statecount).filter fun p => d.Visited p).card

theorem visitedCount_le {d' : Walk2Data} (hcount : d.new.statecount ≤ d'.new.statecount)
    (hvis : ∀ {p}, d.Visited p → d'.Visited p) : d.visitedCount ≤ d'.visitedCount := by
  apply Finset.card_le_card
  intro p hp
  rw [Finset.mem_filter, Finset.mem_range] at hp ⊢
  exact ⟨hp.1.trans_le hcount, hvis hp.2⟩

theorem visitedCount_lt_statecount (hp : p < d.new.statecount) (hno : ¬ d.Visited p) :
    d.visitedCount < d.new.statecount := by
  refine lt_of_lt_of_eq (Finset.card_lt_card ?_) (Finset.card_range _)
  rw [Finset.filter_ssubset]
  exact ⟨p, Finset.mem_range.mpr hp, hno⟩

end Invariant

section Walked

variable {a b : Fsm} {edgemask endmask : Walk2Mask} {B : Finset StatePair}

theorem visited_mark (hcomb : comb < d.new.statecount) :
    (d.mark comb).Visited p ↔ p = comb ∨ d.Visited p := by
  unfold Walk2Data.Visited Walk2Data.mark
  by_cases hp : p = comb
  · subst hp
    simp [Fsm.state_modifyState_self hcomb]
  · simp [Fsm.state_modifyState_ne hp, hp]

theorem state_mark (d : Walk2Data) (comb p : ℕ) :
    ((d.mark comb).new.state p).edges = (d.new.state p).edges ∧
      ((d.mark comb).new.state p).epsilons = (d.new.state p).epsilons ∧
      ((d.mark comb).new.state p).isEnd = (d.new.state p).isEnd := by
  unfold Walk2Data.mark
  rw [Fsm.state_modifyState]
  split
  · rename_i hp
    rw [hp.1]
    exact ⟨rfl, rfl, rfl⟩
  · exact ⟨rfl, rfl, rfl⟩

/-- A change to edges and marks of visited states keeps the invariant if all edges lead to states,
and out of visited ones only. -/
theorem Walk2Inv.change {d' : Walk2Data} (h : Walk2Inv a b endmask B d)
    (hstates : d'.states = d.states) (hcount : d'.new.statecount = d.new.statecount)
    (hstate : ∀ p, (d'.new.state p).epsilons = (d.new.state p).epsilons ∧
      (d'.new.state p).isEnd = (d.new.state p).isEnd)
    (hendids : d'.new.endidInfo = d.new.endidInfo)
    (heager : d'.new.eagerOutputInfo = d.new.eagerOutputInfo)
    (hedge : ∀ {p c q}, d'.new.Edge p c q → q < d.new.statecount ∧ d'.Visited p) :
    Walk2Inv a b endmask B d' := by
  constructor
  case count => rw [hstates, hcount]; exact h.count
  case comb_lt => rw [hstates, hcount]; exact h.comb_lt
  case comb_inj => rw [hstates]; exact h.comb_inj
  case covers => rw [hstates, hcount]; exact h.covers
  case bounded => rw [hstates]; exact h.bounded
  case isEnd =>
    intro t ht
    rw [Fsm.IsEnd, (hstate t.comb).2]
    exact h.isEnd (hstates ▸ ht)
  case endids => rw [hstates, hendids]; exact h.endids
  case endids_below => rw [hcount, hendids]; exact h.endids_below
  case eager => rw [heager]; exact h.eager
  case not_eps =>
    intro s t hst
    rw [Fsm.Eps, (hstate s).1] at hst
    exact h.not_eps s t hst
  case edge_lt => exact fun he => hcount ▸ (hedge he).1
  case edge_visited => exact fun he => (hedge he).2

theorem Walk2Inv.mark (h : Walk2Inv a b endmask B d) (hcomb : comb < d.new.statecount) :
    Walk2Inv a b endmask B (d.mark comb) := by
  refine h.change rfl (Fsm.statecount_modifyState ..) (fun p => (state_mark d comb p).2) rfl rfl ?_
  intro p c q he
  rw [Fsm.Edge, (state_mark d comb p).1] at he
  exact ⟨h.edge_lt he, (visited_mark hcomb).mpr (.inr (h.edge_visited he))⟩

theorem edge_addEdge (hqc : qc < d.new.statecount) (comb : ℕ) (c : Byte) {c' : Byte} {q : ℕ} :
    (d.addEdge qc comb c).new.Edge p c' q ↔
      d.new.Edge p c' q ∨ (p = qc ∧ c' = c ∧ q = comb) := by
  rw [and_comm (a := c' = c)]
  exact edge_fsmAddedgeLiteral hqc comb c

theorem state_addEdge (d : Walk2Data) (qc comb : ℕ) (c : Byte) (p : ℕ) :
    ((d.addEdge qc comb c).new.state p).visited = (d.new.state p).visited ∧
      ((d.addEdge qc comb c).new.state p).epsilons = (d.new.state p).epsilons ∧
      ((d.addEdge qc comb c).new.state p).isEnd = (d.new.state p).isEnd := by
  unfold Walk2Data.addEdge fsmAddedgeLiteral
  rw [Fsm.state_modifyState]
  split
  · rename_i hp
    rw [hp.1]
    exact ⟨rfl, rfl, rfl⟩
  · exact ⟨rfl, rfl, rfl⟩

theorem visited_addEdge {c : Byte} : (d.addEdge qc comb c).Visited p ↔ d.Visited p := by
  rw [Walk2Data.Visited, (state_addEdge d qc comb c p).1, Walk2Data.Visited]

section

variable (h : Walk2Inv a b endmask B d) (hqc : qc < d.new.statecount) (hvis : d.Visited qc)
include h hqc hvis

theorem Walk2Inv.addEdge (hcomb : comb < d.new.statecount) (c : Byte) :
    Walk2Inv a b endmask B (d.addEdge qc comb c) := by
  refine h.change rfl (Fsm.statecount_modifyState ..) (fun p => (state_addEdge d qc comb c p).2) rfl
    rfl ?_
  intro p c' q he
  rw [visited_addEdge]
  rcases (edge_addEdge hqc comb c).mp he with he | ⟨rfl, -, rfl⟩
  · exact ⟨h.edge_lt he, h.edge_visited he⟩
  · exact ⟨hcomb, hvis⟩

variable {walk : Walk2Data → Walk2Tuple → Walk2Data}
  (hwalk : ∀ d' t, Walk2Inv a b endmask B d' → t ∈ d'.states.entries → ¬ d'.Visited t.comb →
    d.visitedCount ≤ d'.visitedCount →
    Walked a b edgemask endmask B ∅ d' (walk d' t) ∧ (walk d' t).Visited t.comb)
include hwalk

/-- One round of the loop over the edges out of the pair of `qc`. -/
theorem walk2Follow_walked {m : Byte × StatePair}
    (hm : m.2 ∈ B) :
    Walked a b edgemask endmask B {qc} d (walk2Follow a b endmask walk qc d m) ∧
      ∃ q, ⟨m.2, q⟩ ∈ (walk2Follow a b endmask walk qc d m).states.entries ∧
        (walk2Follow a b endmask walk qc d m).Visited q ∧
        ∀ c' q', (walk2Follow a b endmask walk qc d m).new.Edge qc c' q' ↔
          d.new.Edge qc c' q' ∨ (c' = m.1 ∧ q' = q) := by
  have hadd := fsmWalk2TupleNew_added h hm
  unfold walk2Follow
  generalize fsmWalk2TupleNew a b endmask d m.2 = r at hadd ⊢
  obtain ⟨dst, d₁⟩ := r
  dsimp only at hadd ⊢
  have hqc₁ : qc < d₁.new.statecount := hqc.trans_le hadd.count
  have hvisited : ∀ p, (d₁.addEdge qc dst.comb m.1).Visited p ↔ d.Visited p := by
    intro p
    rw [visited_addEdge, Walk2Data.Visited, hadd.visited, Walk2Data.Visited]
  have hdst : dst = ⟨m.2, dst.comb⟩ := by rw [← hadd.pair]
  have hinv := hadd.inv.addEdge hqc₁ (visited_addEdge.mp ((hvisited qc).mpr hvis))
    (hadd.inv.comb_lt hadd.mem) m.1
  -- either way the destination is visited afterwards, and the walk below it is a part
  have hbelow : ∃ d₂, Walked a b edgemask endmask B ∅ (d₁.addEdge qc dst.comb m.1) d₂ ∧
      d₂.Visited dst.comb ∧
      d₂ = if (d₁.addEdge qc dst.comb m.1).Visited dst.comb then d₁.addEdge qc dst.comb m.1
        else walk (d₁.addEdge qc dst.comb m.1) dst := by
    by_cases hseen : (d₁.addEdge qc dst.comb m.1).Visited dst.comb
    · exact ⟨_, .refl hinv, hseen, (if_pos hseen).symm⟩
    · have hle : d.visitedCount ≤ (d₁.addEdge qc dst.comb m.1).visitedCount := by
        apply visitedCount_le
        · exact hadd.count.trans_eq (Fsm.statecount_modifyState ..).symm
        · exact fun {p} hp => (hvisited p).mpr hp
      obtain ⟨hw, hv⟩ := hwalk _ dst hinv hadd.mem hseen hle
      exact ⟨_, hw, hv, (if_neg hseen).symm⟩
  obtain ⟨d₂, hw, hv, heq⟩ := hbelow
  rw [← heq]
  have hedge : ∀ {p}, d.Visited p → ∀ c' q', d₂.new.Edge p c' q' ↔
      d.new.Edge p c' q' ∨ (p = qc ∧ c' = m.1 ∧ q' = dst.comb) := by
    intro p hp c' q'
    rw [hw.keep ((hvisited p).mpr hp) (Set.notMem_empty p), edge_addEdge hqc₁, Fsm.Edge,
      hadd.edges, Fsm.Edge]
  constructor
  · constructor
    case inv => exact hw.inv
    case start => exact hw.start.trans hadd.start
    case entries => exact fun ht => hw.entries (hadd.entries.mpr (.inr ht))
    case count => exact hadd.count.trans ((Fsm.statecount_modifyState ..).symm.trans_le hw.count)
    case visited => exact fun {p} hp => hw.visited ((hvisited p).mpr hp)
    case keep =>
      intro p hp hb c' q'
      rw [hedge hp]
      exact or_iff_left fun hpq => hb hpq.1
    case complete =>
      intro t ht hno hvt
      exact hw.complete ht (fun hv' => hno ((hvisited t.comb).mp hv')) hvt
    case fresh =>
      intro t ht hno
      by_cases hmid : t ∈ d₁.states.entries
      · rcases hadd.entries.mp hmid with rfl | hmid
        · exact hv
        · exact absurd hmid hno
      · exact hw.fresh ht hmid
  · refine ⟨dst.comb, ?_, hv, fun c' q' => ?_⟩
    · rw [← hdst]
      exact hw.entries hadd.mem
    · rw [hedge hvis]
      simp

/-- The loop over edges out of the pair of `qc`. -/
theorem foldl_walk2Follow_walked {ms : List (Byte × StatePair)}
    (hms : ∀ m ∈ ms, m.2 ∈ B) :
    Walked a b edgemask endmask B {qc} d (ms.foldl (walk2Follow a b endmask walk qc) d) ∧
      (∀ c q, (ms.foldl (walk2Follow a b endmask walk qc) d).new.Edge qc c q ↔
        d.new.Edge qc c q ∨ ∃ k, (c, k) ∈ ms ∧
          ⟨k, q⟩ ∈ (ms.foldl (walk2Follow a b endmask walk qc) d).states.entries) ∧
      ∀ m ∈ ms, ∃ q, ⟨m.2, q⟩ ∈ (ms.foldl (walk2Follow a b endmask walk qc) d).states.entries ∧
        (ms.foldl (walk2Follow a b endmask walk qc) d).Visited q := by
  induction ms generalizing d with
  | nil => exact ⟨.refl h, fun c q => by simp, fun m hm => absurd hm not_mem_nil⟩
  | cons m ms ih =>
    obtain ⟨hstep, q₁, hq₁, hv₁, hedge₁⟩ :=
      walk2Follow_walked h hqc hvis hwalk (hms m mem_cons_self)
    rw [foldl_cons]
    generalize walk2Follow a b endmask walk qc d m = d₁ at hstep hq₁ hv₁ hedge₁ ⊢
    obtain ⟨hrest, hedge, hdone⟩ := ih hstep.inv (hqc.trans_le hstep.count) (hstep.visited hvis)
      (fun d' t hd' ht hno hle =>
        hwalk d' t hd' ht hno ((visitedCount_le hstep.count hstep.visited).trans hle))
      fun m' hm' => hms m' (mem_cons_of_mem _ hm')
    generalize ms.foldl (walk2Follow a b endmask walk qc) d₁ = d₂ at hrest hedge hdone ⊢
    have hbusy : ∀ p ∈ ({qc} : Set ℕ), d.Visited p := by
      intro p hp
      rwa [Set.mem_singleton_iff.mp hp]
    refine ⟨hstep.trans hbusy hrest, fun c q => ?_, fun m' hm' => ?_⟩
    · -- one tuple for each pair, so the destination is the one the round found
      have hhead : ∀ {k}, k = m.2 → (⟨k, q⟩ ∈ d₂.states.entries ↔ q = q₁) := by
        rintro k rfl
        constructor
        · intro hq
          exact congrArg Walk2Tuple.comb (Walk2Inv.pair_inj hq (hrest.entries hq₁) rfl)
        · rintro rfl
          exact hrest.entries hq₁
      rw [hedge, hedge₁, or_assoc]
      simp only [mem_cons, or_and_right, exists_or]
      refine or_congr_right (or_congr_left ?_)
      constructor
      · rintro ⟨hc, hq⟩
        exact ⟨m.2, by rw [hc], (hhead rfl).mpr hq⟩
      · rintro ⟨k, hk, hq⟩
        obtain ⟨hc, hk⟩ := Prod.mk.inj hk
        exact ⟨hc, (hhead hk).mp hq⟩
    · rcases mem_cons.mp hm' with rfl | hm'
      · exact ⟨q₁, hrest.entries hq₁, hrest.visited hv₁⟩
      · exact hdone m' hm'

end

/-- **The walk below one pair**, with fuel for all pairs not yet visited. -/
theorem fsmWalk2Edges_walked (hmoves : ∀ {k}, k ∈ B → ∀ m ∈ walk2Moves a b edgemask k, m.2 ∈ B)
    {fuel : ℕ} (h : Walk2Inv a b endmask B d) (ht : t ∈ d.states.entries)
    (hno : ¬ d.Visited t.comb) (hfuel : B.card ≤ fuel + d.visitedCount) :
    Walked a b edgemask endmask B ∅ d (fsmWalk2Edges a b edgemask endmask fuel d t) ∧
      (fsmWalk2Edges a b edgemask endmask fuel d t).Visited t.comb := by
  induction fuel generalizing d t with
  | zero =>
    -- all pairs are visited: there is none left to walk below
    have hlt := visitedCount_lt_statecount (h.comb_lt ht) hno
    have hle := h.statecount_le
    omega
  | succ fuel ih =>
    have hcomb := h.comb_lt ht
    have hmark : ∀ {p}, (d.mark t.comb).Visited p ↔ p = t.comb ∨ d.Visited p :=
      visited_mark hcomb
    have hcount : (d.mark t.comb).new.statecount = d.new.statecount :=
      Fsm.statecount_modifyState ..
    have hmore : d.visitedCount < (d.mark t.comb).visitedCount := by
      apply Finset.card_lt_card
      rw [Finset.ssubset_iff_of_subset]
      · exact ⟨t.comb, by simp [hcount, hcomb, hmark], by simp [hno]⟩
      · intro p hp
        rw [Finset.mem_filter] at hp ⊢
        exact ⟨hcount ▸ hp.1, hmark.mpr (.inr hp.2)⟩
    obtain ⟨hloop, hedge, hdone⟩ := foldl_walk2Follow_walked (h.mark hcomb) (hcount ▸ hcomb)
      (hmark.mpr (.inl rfl)) (fun d' t' hd' ht' hno' hle => ih hd' ht' hno' (by omega))
      (hmoves (h.bounded ht))
    unfold fsmWalk2Edges
    rw [if_neg hno]
    generalize (walk2Moves a b edgemask t.pair).foldl (walk2Follow a b endmask
      (fsmWalk2Edges a b edgemask endmask fuel) t.comb) (d.mark t.comb) = d₂
      at hloop hedge hdone ⊢
    have hold : ∀ {p c q}, (d.mark t.comb).new.Edge p c q ↔ d.new.Edge p c q := by
      intro p c q
      rw [Fsm.Edge, (state_mark d t.comb p).1, Fsm.Edge]
    refine ⟨?_, hloop.visited (hmark.mpr (.inl rfl))⟩
    constructor
    case inv => exact hloop.inv
    case start => exact hloop.start
    case entries => exact fun ht' => hloop.entries ht'
    case count => exact hcount ▸ hloop.count
    case visited => exact fun hp => hloop.visited (hmark.mpr (.inr hp))
    case keep =>
      intro p hp _ c q
      have hne : p ∉ ({t.comb} : Set ℕ) := fun heq => hno (Set.mem_singleton_iff.mp heq ▸ hp)
      rw [hloop.keep (hmark.mpr (.inr hp)) hne, hold]
    case complete =>
      intro t' ht' hno' hvis'
      by_cases heq : t'.comb = t.comb
      · -- the pair itself: its loop has gone over all its edges
        obtain rfl := hloop.inv.comb_inj ht' (hloop.entries ht) heq
        have hnone : ∀ c q, ¬ (d.mark t'.comb).new.Edge t'.comb c q := by
          intro c q he
          exact hno (h.edge_visited (hold.mp he))
        have hedge' : ∀ c q, d₂.new.Edge t'.comb c q ↔
            ∃ k, (c, k) ∈ walk2Moves a b edgemask t'.pair ∧ ⟨k, q⟩ ∈ d₂.states.entries := by
          intro c q
          rw [hedge, or_iff_right (hnone c q)]
        constructor
        · intro c q he
          exact (hedge' c q).mp he
        · intro c k hk
          obtain ⟨q, hq, hqv⟩ := hdone (c, k) hk
          exact ⟨q, hq, hqv, (hedge' c q).mpr ⟨k, hk, hq⟩⟩
      · apply hloop.complete ht' ?_ hvis'
        intro hv
        rcases hmark.mp hv with hv | hv
        · exact heq hv
        · exact hno' hv
    case fresh => exact fun ht' hno' => hloop.fresh ht' hno'

end Walked

end Libfsm
