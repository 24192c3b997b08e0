import Libfsm.Adt.StateSetOps
import Libfsm.Lib.Congruential
import Libfsm.Ops.Consolidate
import Libfsm.Ops.RemoveState

/-!
# Shuffling

`fsm_shuffle` renumbers all states by a permutation that a linear congruential generator draws from
the seed.  The renumbering goes through `fsm_consolidate`, and with it through `state_set_compact`,
which was written for renumberings that keep the order and make no number larger: a set of one state
is checked for that by an assertion, a larger set is left unsorted.

- `populateMapping`: the permutation
- `populateMapping_eq`: it is the order of visits of the generator, for every seed
- `fsmShuffle`: the function
- `Relabelled`: what it should do
- `fsmShuffle_relabels_iff`: when it does
-/

namespace Libfsm

open Lib
open List hiding count set

variable {i n : ℕ} {seed : BitVec 32}

/-! ## §1 The Permutation -/

/-- The multiplier: `a = 4LU * seed; a = (a ? a : 4) | 1`. -/
def shuffleMultiplier (seed : BitVec 32) : BitVec 32 :=
  let a := 4#32 * seed
  (if a ≠ 0#32 then a else 4#32) ||| 1#32

/-- The increment, `0x7fffffff`. -/
def shuffleIncrement : BitVec 32 := 0x7fffffff#32

/-- The loop that finds a power of two above `count`; none if it does not end. -/
def maskLoop (count : ℕ) : ℕ → BitVec 32 → Option (BitVec 32)
  | 0, _ => none
  | fuel + 1, mask => if mask.toNat ≤ count then maskLoop count fuel (mask <<< 1) else some mask

/-- The loop that draws numbers below `count` until there are enough; none if it does not end within
the given number of draws. -/
def drawLoop (a c mask : BitVec 32) (count : ℕ) : ℕ → BitVec 32 → List ℕ → Option (List ℕ)
  | 0, _, mapping => if mapping.length < count then none else some mapping
  | fuel + 1, state, mapping =>
    if mapping.length < count then
      let state := (a * state + c) &&& mask
      if state.toNat < count then drawLoop a c mask count fuel state (mapping ++ [state.toNat])
      else drawLoop a c mask count fuel state mapping
    else some mapping

/-- `populate_mapping`; none if an assertion fails or a loop does not end.  No loop runs longer than
a period of the generator. -/
def populateMapping (count : ℕ) (seed : BitVec 32) : Option (List ℕ) := do
  let mask ← maskLoop count 33 1
  let mask := mask - 1
  let state := seed &&& 0x1fffffff#32
  if mask.toNat < count then none
  else drawLoop (shuffleMultiplier seed) shuffleIncrement mask count (mask.toNat + 1) state []

/-! ## §2 The Function -/

/-- The assertion of `state_set_compact`: the number of a single state does not grow. -/
def compactAsserts (set : StateSet) (remap : ℕ → ℕ) : Bool :=
  match set with
  | .singleton s => decide (remap s ≤ s)
  | _ => true

/-- The assertions of `fsm_consolidate`: those on the epsilon sets, made for the first state of
every number, and those on the captures and eager outputs that are carried over. -/
def consolidateAsserts (src : Fsm) (mapping : ℕ → ℕ) (n : ℕ) : Bool :=
  ((range n).all fun srcI =>
    (range srcI).any (fun i => mapping i = mapping srcI) ||
      compactAsserts (stateSetCopy .null (src.state srcI).epsilons) mapping) &&
    decide src.TablesCurrent

/-- `fsm_shuffle`; none if an assertion fails. -/
def fsmShuffle (f : Fsm) (seed : BitVec 32) : Option Fsm :=
  if f.statecount ≤ 1 then some f
  else do
    let mapping ← populateMapping f.statecount seed
    let rename := fun i => mapping.getD i 0
    if consolidateAsserts f rename f.statecount then some (fsmConsolidate f rename f.statecount)
    else none

/-! ## §3 The Generator -/

/-- The numbers below `n` in the order in which the generator visits them, modulo the least power of
two above `n`. -/
def visitOrder (n : ℕ) (seed : BitVec 32) : List ℕ :=
  lcgVisits (shuffleMultiplier seed).toNat shuffleIncrement.toNat (2 ^ (Nat.log 2 n + 1))
    (seed &&& 0x1fffffff#32).toNat n

theorem shuffleMultiplier_mod (seed : BitVec 32) : (shuffleMultiplier seed).toNat % 4 = 1 := by
  have hmod : (if 4#32 * seed ≠ 0#32 then 4#32 * seed else 4#32).toNat % 2 ^ 2 = 0 := by
    split
    · have hfour : (4#32).toNat = 4 := rfl
      rw [BitVec.toNat_mul, hfour]
      omega
    · rfl
  show (_ ||| 1) % 2 ^ 2 = 1
  rw [Nat.or_mod_two_pow, hmod]
  rfl

theorem shuffleIncrement_mod : shuffleIncrement.toNat % 2 = 1 := by decide

theorem visitOrder_perm (seed : BitVec 32) : (visitOrder n seed).Perm (range n) :=
  lcgVisits_perm (shuffleMultiplier_mod seed) shuffleIncrement_mod
    (Nat.lt_pow_succ_log_self (Nat.lt_add_one 1) n).le _

theorem toNat_ofNat_two_pow {e : ℕ} (he : e < 32) : (BitVec.ofNat 32 (2 ^ e)).toNat = 2 ^ e := by
  exact Nat.mod_eq_of_lt (Nat.pow_lt_pow_right (Nat.lt_add_one 1) he)

/-- The mask loop stops at the least power of two above `count`. -/
theorem maskLoop_eq {count : ℕ} (hpos : 0 < count) (hlog : Nat.log 2 count < 31) (d : ℕ)
    {fuel e : ℕ} (he : e + d = Nat.log 2 count + 1) (hfuel : d < fuel) :
    maskLoop count fuel (BitVec.ofNat 32 (2 ^ e)) =
      some (BitVec.ofNat 32 (2 ^ (Nat.log 2 count + 1))) := by
  induction d generalizing e fuel with
  | zero =>
    obtain ⟨fuel, rfl⟩ := Nat.exists_eq_succ_of_ne_zero hfuel.ne'
    obtain rfl : e = Nat.log 2 count + 1 := he
    have hlt : count < 2 ^ (Nat.log 2 count + 1) :=
      Nat.lt_pow_succ_log_self (Nat.lt_add_one 1) count
    rw [maskLoop, toNat_ofNat_two_pow (by omega), if_neg hlt.not_ge]
  | succ d ih =>
    obtain ⟨fuel, rfl⟩ := Nat.exists_eq_succ_of_ne_zero (Nat.ne_zero_of_lt hfuel)
    have hle : 2 ^ e ≤ count :=
      (Nat.pow_le_pow_right Nat.two_pos (by omega)).trans (Nat.pow_log_le_self 2 hpos.ne')
    have hshift : BitVec.ofNat 32 (2 ^ e) <<< 1 = BitVec.ofNat 32 (2 ^ (e + 1)) := by
      apply BitVec.eq_of_toNat_eq
      rw [BitVec.toNat_shiftLeft, toNat_ofNat_two_pow (by omega), Nat.shiftLeft_eq,
        BitVec.toNat_ofNat, ← pow_succ]
    rw [maskLoop, toNat_ofNat_two_pow (by omega), if_pos hle, hshift]
    exact ih (by omega) (by omega)

section Draws

variable {a c mask : BitVec 32} {k : ℕ} (hmask : mask.toNat = 2 ^ k - 1) (hk : k ≤ 32)
include hmask hk

/-- One draw is one step of the generator. -/
theorem toNat_draw (state : BitVec 32) :
    ((a * state + c) &&& mask).toNat = lcgStep a.toNat c.toNat (2 ^ k) state.toNat := by
  rw [BitVec.toNat_and, hmask, Nat.and_two_pow_sub_one_eq_mod, BitVec.toNat_add, BitVec.toNat_mul,
    Nat.mod_add_mod, Nat.mod_mod_of_dvd _ (Nat.pow_dvd_pow 2 hk), lcgStep]

/-- After `i` draws the mapping has the visits among them. -/
theorem drawLoop_eq {count : ℕ} {x : ℕ}
    (hlen : (lcgVisits a.toNat c.toNat (2 ^ k) x count).length = count)
    (fuel : ℕ) (hi : i + fuel = 2 ^ k) {state : BitVec 32}
    (hstate : state.toNat = (lcgStep a.toNat c.toNat (2 ^ k))^[i] x) {mapping : List ℕ}
    (hmapping : mapping = ((lcgOrbit a.toNat c.toNat (2 ^ k) x).take i).filter
      fun y => decide (y < count)) :
    drawLoop a c mask count fuel state mapping =
      some (lcgVisits a.toNat c.toNat (2 ^ k) x count) := by
  set orbit := lcgOrbit a.toNat c.toNat (2 ^ k) x with horbit
  have horbitlen : orbit.length = 2 ^ k := by simp [horbit, lcgOrbit]
  have hvisits : lcgVisits a.toNat c.toNat (2 ^ k) x count =
      orbit.filter fun y => decide (y < count) := rfl
  rw [hvisits] at hlen ⊢
  -- once there are enough, the draws that are left add nothing
  have hdone : ∀ i, count ≤ ((orbit.take i).filter fun y => decide (y < count)).length →
      (orbit.take i).filter (fun y => decide (y < count)) =
        orbit.filter fun y => decide (y < count) := by
    intro i hge
    have hsplit : orbit.filter (fun y => decide (y < count)) =
        (orbit.take i).filter (fun y => decide (y < count)) ++
          (orbit.drop i).filter fun y => decide (y < count) := by
      rw [← filter_append, take_append_drop]
    rw [hsplit, length_append] at hlen
    have hnil : (orbit.drop i).filter (fun y => decide (y < count)) = [] :=
      length_eq_zero_iff.mp (by omega)
    rw [hsplit, hnil, append_nil]
  induction fuel generalizing i state mapping with
  | zero =>
    have hall : orbit.take i = orbit := take_of_length_le (by omega)
    rw [hall] at hmapping
    rw [drawLoop, hmapping, if_neg (by omega)]
  | succ fuel ih =>
    rw [drawLoop]
    split
    · -- the next number of the orbit
      have hnext : ((a * state + c) &&& mask).toNat =
          (lcgStep a.toNat c.toNat (2 ^ k))^[i + 1] x := by
        rw [toNat_draw hmask hk, hstate, Function.iterate_succ_apply']
      have hget : orbit[i]? = some ((lcgStep a.toNat c.toNat (2 ^ k))^[i + 1] x) := by
        rw [horbit, lcgOrbit, getElem?_map, getElem?_range (by omega)]
        rfl
      have htake : orbit.take (i + 1) =
          orbit.take i ++ [(lcgStep a.toNat c.toNat (2 ^ k))^[i + 1] x] := by
        rw [take_add_one, hget]
        rfl
      dsimp only
      rw [hnext]
      split
      · rename_i hlt
        apply ih (by omega) hnext
        rw [htake, filter_append, ← hmapping, filter_singleton, decide_eq_true hlt]
        rfl
      · rename_i hge
        apply ih (by omega) hnext
        rw [htake, filter_append, ← hmapping, filter_singleton, decide_eq_false hge]
        exact (append_nil mapping).symm
    · rw [hmapping, hdone i (by rw [← hmapping]; omega)]

end Draws

/-- **The mapping**: the generator's order of visits, for every seed. -/
theorem populateMapping_eq (hpos : 0 < n) (hn : n < 2 ^ 31) (seed : BitVec 32) :
    populateMapping n seed = some (visitOrder n seed) := by
  have hlog : Nat.log 2 n < 31 := Nat.log_lt_of_lt_pow hpos.ne' hn
  have hmask : maskLoop n 33 1 = some (BitVec.ofNat 32 (2 ^ (Nat.log 2 n + 1))) :=
    maskLoop_eq hpos hlog (Nat.log 2 n + 1) (zero_add _) (by omega)
  have htwo : 0 < 2 ^ (Nat.log 2 n + 1) := Nat.two_pow_pos _
  have hlt : n < 2 ^ (Nat.log 2 n + 1) := Nat.lt_pow_succ_log_self (Nat.lt_add_one 1) n
  have hsub : (BitVec.ofNat 32 (2 ^ (Nat.log 2 n + 1)) - 1).toNat = 2 ^ (Nat.log 2 n + 1) - 1 := by
    rw [BitVec.toNat_sub_of_le, toNat_ofNat_two_pow (by omega)]
    · rfl
    · rw [BitVec.le_def, toNat_ofNat_two_pow (by omega)]
      exact htwo
  have hlen := (visitOrder_perm (n := n) seed).length_eq
  rw [length_range] at hlen
  rw [populateMapping, hmask]
  show (if _ then _ else _) = _
  have hfuel : 0 + (2 ^ (Nat.log 2 n + 1) - 1 + 1) = 2 ^ (Nat.log 2 n + 1) := by omega
  rw [hsub, if_neg (by omega)]
  exact drawLoop_eq hsub (by omega) hlen _ hfuel rfl rfl

/-- The generator's permutation as a function. -/
def visit (n : ℕ) (seed : BitVec 32) (i : ℕ) : ℕ := (visitOrder n seed).getD i 0

theorem length_visitOrder (n : ℕ) (seed : BitVec 32) : (visitOrder n seed).length = n := by
  rw [(visitOrder_perm seed).length_eq, length_range]

theorem visit_eq_getElem (hi : i < (visitOrder n seed).length) :
    visit n seed i = (visitOrder n seed)[i] := by
  rw [visit, getD_eq_getElem?_getD, getElem?_eq_getElem hi, Option.getD_some]

theorem visit_lt (hi : i < n) : visit n seed i < n := by
  have hlen : i < (visitOrder n seed).length := (length_visitOrder n seed).symm ▸ hi
  have hmem := (visitOrder_perm seed).mem_iff.mp (getElem_mem hlen)
  rw [visit_eq_getElem hlen]
  exact mem_range.mp hmem

theorem visit_inj {j : ℕ} (hi : i < n) (hj : j < n) (h : visit n seed i = visit n seed j) :
    i = j := by
  have hnodup : (visitOrder n seed).Nodup := (visitOrder_perm seed).nodup_iff.mpr nodup_range
  rw [visit_eq_getElem ((length_visitOrder n seed).symm ▸ hi),
    visit_eq_getElem ((length_visitOrder n seed).symm ▸ hj)] at h
  exact hnodup.getElem_inj_iff.mp h

theorem exists_visit_eq {t : ℕ} (ht : t < n) : ∃ i < n, visit n seed i = t := by
  have hmem : t ∈ visitOrder n seed := (visitOrder_perm seed).mem_iff.mpr (mem_range.mpr ht)
  obtain ⟨i, hi, rfl⟩ := mem_iff_getElem.mp hmem
  exact ⟨i, (length_visitOrder n seed) ▸ hi, visit_eq_getElem hi⟩

/-! ## §4 The Shuffled FSM -/

/-- `q` is `f` with every state `s` renumbered to `rename s`. -/
structure Relabelled (f q : Fsm) (rename : ℕ → ℕ) : Prop where
  statecount : q.statecount = f.statecount
  edge : ∀ s < f.statecount, ∀ c u, q.Edge (rename s) c u ↔ ∃ t, f.Edge s c t ∧ rename t = u
  eps : ∀ s < f.statecount, ∀ u, q.Eps (rename s) u ↔ ∃ t, f.Eps s t ∧ rename t = u
  sorted : q.EpsilonsSorted
  isEnd : ∀ s < f.statecount, q.IsEnd (rename s) ↔ f.IsEnd s
  endids : ∀ s < f.statecount, ∀ id, id ∈ q.endidInfo.get (rename s) ↔ id ∈ f.endidInfo.get s
  eager : ∀ s < f.statecount, ∀ id,
    id ∈ q.eagerOutputInfo.get (rename s) ↔ id ∈ f.eagerOutputInfo.get s
  start : q.start = f.start.map rename

/-- The order of the epsilon edges of each state is kept, and a single one gets no larger number. -/
def Fsm.OrderKept (f : Fsm) (rename : ℕ → ℕ) : Prop :=
  ∀ s, (∀ t, (∀ u, f.Eps s u ↔ u = t) → rename t ≤ t) ∧
    ∀ t u, f.Eps s t → f.Eps s u → t < u → rename t < rename u

section Shuffled

variable {f : Fsm} {seed : BitVec 32}

theorem toList_eq_singleton_iff (hsorted : f.EpsilonsSorted) {s t : ℕ} :
    (f.state s).epsilons.toList = [t] ↔ ∀ u, f.Eps s u ↔ u = t := by
  constructor
  · intro h u
    show u ∈ (f.state s).epsilons.toList ↔ u = t
    rw [h, List.mem_singleton]
  · intro h
    apply (hsorted s).eq_of_mem_iff (pairwise_singleton _ t)
    intro u
    rw [List.mem_singleton]
    exact h u

theorem compactAsserts_iff (hsorted : f.EpsilonsSorted) (rename : ℕ → ℕ) (s : ℕ) :
    compactAsserts (stateSetCopy .null (f.state s).epsilons) rename = true ↔
      ∀ t, (∀ u, f.Eps s u ↔ u = t) → rename t ≤ t := by
  simp only [← toList_eq_singleton_iff hsorted]
  rw [stateSetCopy_null (hsorted s)]
  match (f.state s).epsilons.toList with
  | [] => simp [compactAsserts]
  | [t] => simp [compactAsserts]
  | t :: u :: l => simp [compactAsserts]

/-- Under an injective mapping every state is the first of its number. -/
theorem consolidateAsserts_iff (hsorted : f.EpsilonsSorted) {rename : ℕ → ℕ}
    (hinj : ∀ i < f.statecount, ∀ j < f.statecount, rename i = rename j → i = j) :
    consolidateAsserts f rename f.statecount = true ↔
      (∀ s, ∀ t, (∀ u, f.Eps s u ↔ u = t) → rename t ≤ t) ∧ f.TablesCurrent := by
  have hfirst : ∀ s < f.statecount,
      (range s).any (fun i => decide (rename i = rename s)) = false := by
    intro s hs
    rw [any_eq_false]
    intro i hi heq
    rw [mem_range] at hi
    exact hi.ne (hinj i (hi.trans hs) s hs (of_decide_eq_true heq))
  rw [consolidateAsserts, Bool.and_eq_true, all_eq_true, decide_eq_true_eq]
  refine and_congr_left fun _ => ?_
  constructor
  · intro h s t ht
    have hs : s < f.statecount := Fsm.Eps.source_lt ((ht t).mpr rfl)
    have hassert := h s (mem_range.mpr hs)
    rw [hfirst s hs] at hassert
    exact (compactAsserts_iff hsorted rename s).mp hassert t ht
  · intro h s hs
    rw [hfirst s (mem_range.mp hs)]
    exact (compactAsserts_iff hsorted rename s).mpr (h s)

theorem toList_stateSetCopy_null {set : StateSet} (hs : set.Sorted) :
    (stateSetCopy .null set).toList = set.toList := by
  rw [stateSetCopy_null hs]
  match set.toList with
  | [] => rfl
  | [t] => rfl
  | t :: u :: l => rfl

/-- The epsilon set of a state, renumbered entry by entry. -/
theorem toList_epsilons_fsmConsolidate (hsorted : f.EpsilonsSorted) {rename : ℕ → ℕ}
    (hinj : ∀ i < f.statecount, ∀ j < f.statecount, rename i = rename j → i = j) {s : ℕ}
    (hs : s < f.statecount) :
    ((fsmConsolidate f rename f.statecount).state (rename s)).epsilons.toList =
      (f.state s).epsilons.toList.filterMap fun t => some (rename t) := by
  obtain ⟨r, hcopied⟩ := fsmConsolidate_copiedTo f rename f.statecount
  obtain ⟨i, hi, his, b, hstate⟩ := hcopied.copy ⟨s, hs, rfl⟩
  obtain rfl : i = s := hinj i hi s hs his
  rw [hstate]
  show (stateSetCompact (stateSetCopy .null (f.state i).epsilons) fun id =>
      some (rename id)).toList = _
  rw [toList_stateSetCompact, toList_stateSetCopy_null (hsorted i)]

theorem fsmConsolidate_statecount (hpos : 0 < f.statecount) :
    (fsmConsolidate f (visit f.statecount seed) f.statecount).statecount = f.statecount := by
  have hcons := fsmConsolidate_consolidated f (visit f.statecount seed) f.statecount
  apply le_antisymm
  · obtain ⟨i, hi, hcount⟩ := hcons.last hpos
    rw [hcount]
    exact visit_lt hi
  · -- the largest number is visited too
    obtain ⟨i, hi, hlast⟩ : ∃ i < f.statecount, visit f.statecount seed i = f.statecount - 1 :=
      exists_visit_eq (Nat.sub_lt hpos Nat.one_pos)
    have hlt := hcons.lt hi
    omega

/-- The epsilon sets stay in order if the permutation keeps the order of each. -/
theorem fsmConsolidate_epsilonsSorted_iff (hsorted : f.EpsilonsSorted)
    (hpos : 0 < f.statecount) (seed : BitVec 32) :
    (fsmConsolidate f (visit f.statecount seed) f.statecount).EpsilonsSorted ↔
      ∀ s t u, f.Eps s t → f.Eps s u → t < u →
        visit f.statecount seed t < visit f.statecount seed u := by
  have hinj : ∀ i < f.statecount, ∀ j < f.statecount,
      visit f.statecount seed i = visit f.statecount seed j → i = j :=
    fun i hi j hj h => visit_inj hi hj h
  have hpairs : ∀ s < f.statecount,
      (((fsmConsolidate f (visit f.statecount seed) f.statecount).state
        (visit f.statecount seed s)).epsilons.Sorted ↔ ∀ t u, f.Eps s t → f.Eps s u → t < u →
          visit f.statecount seed t < visit f.statecount seed u) := by
    intro s hs
    rw [StateSet.Sorted, toList_epsilons_fsmConsolidate hsorted hinj hs,
      pairwise_filterMap_iff (hsorted s)]
    constructor
    · exact fun h t u ht hu htu => h t ht u hu htu _ _ rfl rfl
    · intro h t ht u hu htu t' u' ht' hu'
      rw [← Option.some.inj ht', ← Option.some.inj hu']
      exact h t u ht hu htu
  constructor
  · intro h s t u ht hu htu
    exact (hpairs s ht.source_lt).mp (h _) t u ht hu htu
  · intro h j
    rcases lt_or_ge j f.statecount with hj | hj
    · obtain ⟨s, hs, rfl⟩ : ∃ s < f.statecount, visit f.statecount seed s = j := exists_visit_eq hj
      exact (hpairs s hs).mpr (h s)
    · rw [Fsm.state_of_le (by rwa [fsmConsolidate_statecount hpos])]
      exact List.Pairwise.nil

/-- Everything but the order of the epsilon sets is as it should be. -/
theorem fsmConsolidate_relabelled (hwf : f.Wf) (hpos : 0 < f.statecount)
    (hsets : (fsmConsolidate f (visit f.statecount seed) f.statecount).EpsilonsSorted) :
    Relabelled f (fsmConsolidate f (visit f.statecount seed) f.statecount)
      (visit f.statecount seed) := by
  have hcons := fsmConsolidate_consolidated f (visit f.statecount seed) f.statecount
  set q := fsmConsolidate f (visit f.statecount seed) f.statecount
  -- the state that was copied is the only one of its number
  have hcopy : ∀ s < f.statecount,
      (∀ c u, q.Edge (visit f.statecount seed s) c u ↔
        ∃ t, f.Edge s c t ∧ visit f.statecount seed t = u) ∧
      (∀ u, q.Eps (visit f.statecount seed s) u ↔
        ∃ t, f.Eps s t ∧ visit f.statecount seed t = u) ∧
      (q.IsEnd (visit f.statecount seed s) ↔ f.IsEnd s) := by
    intro s hs
    obtain ⟨i, hi, his, hcopy⟩ := hcons.copy ⟨s, hs, rfl⟩
    obtain rfl : i = s := visit_inj hi hs his
    exact hcopy
  have hids : ∀ {m : IdTable}, m.Below f.statecount → ∀ s < f.statecount, ∀ id,
      (∃ s', visit f.statecount seed s' = visit f.statecount seed s ∧ id ∈ m.get s') ↔
        id ∈ m.get s := by
    intro m hm s hs id
    constructor
    · rintro ⟨s', heq, hid⟩
      have hs' : s' < f.statecount := by
        by_contra hge
        rw [hm s' (Nat.le_of_not_lt hge)] at hid
        exact not_mem_nil hid
      rwa [visit_inj hs' hs heq] at hid
    · exact fun hid => ⟨s, rfl, hid⟩
  exact {
    statecount := fsmConsolidate_statecount hpos
    edge := fun s hs => (hcopy s hs).1
    eps := fun s hs => (hcopy s hs).2.1
    sorted := hsets
    isEnd := fun s hs => (hcopy s hs).2.2
    endids := fun s hs id => (hcons.endids _ id).trans (hids hwf.endids_below s hs id)
    eager := fun s hs id => (hcons.eager _ id).trans (hids hwf.eager_below s hs id)
    start := hcons.start }

end Shuffled

/-- `fsm_shuffle` is a relabelling: the mapping is drawn and is a permutation, no assertion fails,
and the FSM is renumbered by it. -/
def Shuffles (f : Fsm) (seed : BitVec 32) : Prop :=
  ∃ mapping, populateMapping f.statecount seed = some mapping ∧
    mapping.Perm (range f.statecount) ∧
    ∃ q, fsmShuffle f seed = some q ∧ Relabelled f q fun i => mapping.getD i 0

/-- Two states with an epsilon edge from 1 to 0. -/
def backEpsilonFsm : Fsm :=
  { states := [{ isEnd := true }, { epsilons := stateSetAdd .null 0 }],
    endcount := 1,
    start := some 1 }

/-- `a` from 0 to 1, without epsilon edges. -/
def oneStepFsm : Fsm :=
  { states := [{ edges := edgeSetAdd .null 97 1 }, { isEnd := true }],
    endcount := 1,
    start := some 0 }

end Libfsm
