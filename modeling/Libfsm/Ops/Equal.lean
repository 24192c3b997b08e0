import Mathlib.Data.Set.Card
import Libfsm.Ops.Product

/-!
# Emptiness And Equality

`fsm_empty` of `empty.c` looks for an end state with `fsm_reachable` of `walk/reachable.c`.
`fsm_equal` of `equal.c` compares two FSMs by two subset tests, each of which determinises
copies of both, subtracts one from the other and asks whether the result is empty.

- `fsmReachable`, `fsmEmpty`, `fsmEqual`: the functions, with the FSMs as they leave them
- `fsmEmpty_ne_zero_iff`: the test is truthy exactly for the empty language
- `equalSubtract_empty_iff`: the difference is empty exactly if the subset relation holds
- `Comparable`: all state numbers that a comparison meets fit 24 bits
- `fsmEqual_iff`: when the comparison is right

Both the emptiness test and the product read destinations through the 24 bits of
`struct fsm_edge`, so all state numbers involved have to fit.  An FSM with states but without a
start state is what the comparison cannot deal with: with epsilon edges its determinisation
fails, and without it is left as it is, which `fsm_walk2` asserts not to happen.
-/

namespace Libfsm

open Lib Option Finset

variable {a b f g q : Fsm} {s : ℕ} {w : List Byte}

/-! ## §1 Definitions -/

/-- The destinations of a state as `fsm_reachable` reads them: labelled edges through
`struct fsm_edge`, then epsilon edges. -/
def reachableSuccessors (f : Fsm) (s : ℕ) : List ℕ :=
  (edgeSetEdges (f.state s).edges).map (fun e => e.state.toNat) ++ (f.state s).epsilons.toList

/-- The depth-first search of `fsm_reachable`. -/
def reachableWalk (f : Fsm) : Walk ℕ Unit where
  discipline := .stack
  succ := reachableSuccessors f
  visit acc _ := acc
  relax acc _ _ := acc

/-- `fsm_reachable`: the search goes on until `predicate` gives `stop` for a state taken off the
stack. -/
def fsmReachable (f : Fsm) (state : ℕ) (stop : Bool) (predicate : Fsm → ℕ → Bool) : Bool × Fsm :=
  let order := (reachableWalk f).order (f.statecount + 1)
    ⟨Function.update (fun _ => false) state true, [state], ()⟩
  (if order.any (fun s => predicate f s == stop) then stop else !stop,
    -- the marks are clear when it starts and are cleared when it ends
    f.setVisited fun _ => false)

def fsmEmpty (f : Fsm) : ℤ × Fsm :=
  match fsmGetstart f with
  | none => (-1, f)
  | some start =>
    let (r, f) := fsmReachable f start true fsmIsend
    (if r then 0 else 1, f)

/-- `ensure_dfa` of `equal.c`: the DFA to use for an FSM, a copy unless it is one itself. -/
def equalEnsureDfa (f : Fsm) : Option Fsm :=
  if fsmAll f fsmIsdfa then some f else fsmDeterminise (fsmClone f)

/-- `subtract` of `equal.c`.  A failure is `some none`; nothing is returned where the assertions
of `fsm_walk2` do not hold. -/
def equalSubtract (a b : Fsm) : Option (Option Fsm) :=
  match equalEnsureDfa a, equalEnsureDfa b with
  | some a, some b => (fsmWalk2 a b (fsmWalk2OnlyA ||| fsmWalk2Both) fsmWalk2OnlyA).map some
  | _, _ => some none

def subsetof (a b : Fsm) : Option ℤ :=
  (equalSubtract b a).map fun
    | none => -1
    | some q => (fsmEmpty q).1

/-- `subsetof(a, b) && subsetof(b, a)` -/
def bothSubsets (a b : Fsm) : Option ℤ :=
  (subsetof a b).bind fun r =>
    if r = 0 then some 0 else (subsetof b a).map fun r => if r = 0 then 0 else 1

/-- `fsm_equal`, for FSMs with one allocator, and both FSMs afterwards. -/
def fsmEqual (a b : Fsm) : Option ℤ × Fsm × Fsm :=
  let (emptyA, a) := fsmEmpty a
  if emptyA ≠ 0 then
    let (emptyB, b) := fsmEmpty b
    if emptyB ≠ 0 then (some 1, a, b) else (bothSubsets a b, a, b)
  else (bothSubsets a b, a, b)

/-! ## §2 Emptiness -/

theorem mem_reachableSuccessors (hf : f.Wf) (hn : f.statecount ≤ 2 ^ 24) {t : ℕ} :
    t ∈ reachableSuccessors f s ↔ f.Step s t := by
  have hcut : ∀ {c t'}, f.Edge s c t' → (BitVec.ofNat 24 t').toNat = t' := by
    intro c t' he
    exact Nat.mod_eq_of_lt ((hf.edge_lt he).trans_le hn)
  rw [reachableSuccessors, List.mem_append, Fsm.step_iff, or_comm, List.mem_map]
  refine or_congr Iff.rfl ?_
  constructor
  · rintro ⟨e, he, rfl⟩
    obtain ⟨t', ht', hst⟩ := mem_edgeSetEdges.mp he
    rw [hst, hcut ht']
    exact ⟨e.symbol, ht'⟩
  · intro ⟨c, hc⟩
    exact ⟨⟨BitVec.ofNat 24 t, c⟩, mem_edgeSetEdges.mpr ⟨t, hc, rfl⟩, hcut hc⟩

/-- The search for an end state finds one exactly if one is reachable. -/
theorem fsmReachable_isend (hf : f.Wf) (hn : f.statecount ≤ 2 ^ 24) {start : ℕ}
    (hstart : f.start = some start) :
    (fsmReachable f start true fsmIsend).1 = true ↔ ∃ s, f.Reachable s ∧ f.IsEnd s := by
  have hrel : (fun a b => b ∈ reachableSuccessors f a) = f.Step := by
    funext x y
    exact propext (mem_reachableSuccessors hf hn)
  have hfin : (reachableWalk f).Finished (f.statecount + 1)
      ⟨Function.update (fun _ => false) start true, [start], ()⟩ := by
    refine Walk.finished_of_lt (fun x y hy => ?_) (fun p hp => ?_) (add_comm 1 _).le
    · obtain ⟨o, ho⟩ := (mem_reachableSuccessors hf hn).mp hy
      exact hf.step_lt ho
    · rw [List.mem_singleton.mp hp]
      exact hf.start_lt hstart
  have horder : ∀ s, s ∈ (reachableWalk f).order (f.statecount + 1)
      ⟨Function.update (fun _ => false) start true, [start], ()⟩ ↔ f.Reachable s := by
    intro s
    have hmarks : ∀ z, Function.update (fun _ : ℕ => false) start true z = true → z ∈ [start] := by
      intro z hz
      by_contra hne
      rw [Function.update_of_ne (fun h => hne (List.mem_singleton.mpr h))] at hz
      exact absurd hz (by decide)
    rw [Walk.mem_order hfin, Walk.reach_iff_of_marks hmarks, Fsm.reachable_iff]
    show (∃ p ∈ [start], Relation.ReflTransGen (fun a b => b ∈ reachableSuccessors f a) p s) ↔ _
    rw [hrel]
    simp [hstart]
  unfold fsmReachable
  simp only [Bool.not_true, Bool.if_false_right, Bool.and_true, decide_eq_true_eq,
    List.any_eq_true, beq_true, horder]
  rfl

/-- The result of `fsm_empty` is truthy exactly for the empty language: 1, or -1 for an FSM
without a start state. -/
theorem fsmEmpty_ne_zero_iff (hf : f.Wf) (hn : f.statecount ≤ 2 ^ 24) :
    (fsmEmpty f).1 ≠ 0 ↔ f.language = 0 := by
  unfold fsmEmpty fsmGetstart
  cases hstart : f.start with
  | none =>
    exact iff_of_true (show (-1 : ℤ) ≠ 0 by decide) (Fsm.language_eq_zero_of_start_eq_none hstart)
  | some start =>
    have hreach := fsmReachable_isend hf hn hstart
    dsimp only
    rw [Fsm.language_eq_zero_iff]
    cases hr : (fsmReachable f start true fsmIsend).1 with
    | true =>
      obtain ⟨s, hs, hend⟩ := hreach.mp hr
      exact iff_of_false (by decide) fun h => h s hs hend
    | false =>
      refine iff_of_true (by decide) fun s hs hend => ?_
      rw [hreach.mpr ⟨s, hs, hend⟩] at hr
      exact absurd hr (by decide)

/-- The test leaves the FSM as it was, but for the marks. -/
theorem fsmEmpty_agrees (f : Fsm) : Fsm.Agrees (fsmEmpty f).2 f := by
  unfold fsmEmpty
  split
  · exact ⟨rfl, rfl, fun _ _ _ => Iff.rfl, fun _ _ => Iff.rfl, fun _ => Iff.rfl, fun _ => rfl,
      fun _ => rfl⟩
  · exact f.agrees_setVisited _

/-! ## §3 The DFA Of An Operand -/

/-- What the DFA used in place of an FSM with a start state has to do with it: it accepts
the same words, and cannot tell apart words that land in the same states. -/
structure UsedDfa (f q : Fsm) : Prop where
  isDfa : q.IsDfa
  wf : q.Wf
  start : q.start.isSome = true
  language_eq : q.language = f.language
  tracks : ∀ {w v s}, f.landing w = f.landing v → q.Active w s → q.Active v s
  size : q.statecount = f.statecount ∨ ∀ d < q.statecount, q.Reachable d

theorem Fsm.IsDfa.active_unique (h : f.IsDfa) {t : ℕ} (hs : f.Active w s) (ht : f.Active w t) :
    s = t := by
  cases hstart : f.start with
  | none => exact absurd hs (Fsm.not_active_of_start_eq_none hstart w s)
  | some s₀ =>
    rw [h.active_iff hstart] at hs ht
    exact some.inj (hs.symm.trans ht)

theorem usedDfa_self (hf : f.Wf) (hdfa : f.IsDfa) (hstart : f.start.isSome = true) :
    UsedDfa f f where
  isDfa := hdfa
  wf := hf
  start := hstart
  language_eq := rfl
  tracks {w v s} heq hs := by
    have hlands : s ∈ f.landing w := (Fsm.lands_iff_active hdfa.not_eps).mpr hs
    rw [heq] at hlands
    exact (Fsm.lands_iff_active hdfa.not_eps).mp hlands
  size := .inl rfl

/-- Determinisation cannot tell apart words that land in the same states. -/
theorem usedDfa_fsmDeterminise (hf : f.Wf) (hstart : f.start.isSome = true) :
    ∃ q, fsmDeterminise f = some q ∧ UsedDfa f q := by
  obtain ⟨g, q, hq, hdet, hcases⟩ := fsmDeterminise_spec hf hstart
  have hlang : g.language = f.language := by
    rcases hcases with ⟨rfl, -⟩ | ⟨habs, heps⟩
    · rfl
    · exact habs.language_eq hf heps
  have hlands : ∀ {w s}, g.Active w s ↔ f.Lands w s := by
    rcases hcases with ⟨rfl, heps⟩ | ⟨habs, heps⟩
    · exact (Fsm.lands_iff_active heps).symm
    · exact habs.active_iff_lands hf heps
  have hqs : q.start.isSome = true := by rw [hdet.start]; rfl
  refine ⟨q, hq, hdet.isDfa, hdet.wf, hqs, hdet.language_eq.trans hlang, ?_, .inr hdet.reachable⟩
  intro w v d heq hd
  have hsame : ∀ s, g.Active w s ↔ g.Active v s := by
    intro s
    rw [hlands, hlands]
    exact Set.ext_iff.mp heq s
  obtain ⟨s, hs⟩ := (hdet.exists_active_iff w).mp ⟨d, hd⟩
  obtain ⟨e, he⟩ := (hdet.exists_active_iff v).mpr ⟨s, (hsame s).mp hs⟩
  rwa [hdet.active_inj d e w v hd he hsame]

theorem UsedDfa.of_isCopy (hcopy : IsCopy f g) (h : UsedDfa g q) : UsedDfa f q where
  isDfa := h.isDfa
  wf := h.wf
  start := h.start
  language_eq := h.language_eq.trans hcopy.language_eq
  tracks {w v s} heq hs := by
    refine h.tracks ?_ hs
    ext t
    show g.Lands w t ↔ g.Lands v t
    rw [hcopy.lands_iff, hcopy.lands_iff]
    exact Set.ext_iff.mp heq t
  size := h.size.imp_left fun hsize => hsize.trans hcopy.statecount

/-- `ensure_dfa` succeeds for an FSM with a start state. -/
theorem equalEnsureDfa_of_start (hf : f.Wf) (hstart : f.start.isSome = true) :
    ∃ q, equalEnsureDfa f = some q ∧ UsedDfa f q := by
  unfold equalEnsureDfa
  split
  · rename_i hall
    exact ⟨f, rfl, usedDfa_self hf (Fsm.isDfa_iff_fsmAll.mpr hall) hstart⟩
  · have hcopy := fsmClone_isCopy f
    obtain ⟨q, hq, hused⟩ := usedDfa_fsmDeterminise (hcopy.wf hf) (hcopy.start ▸ hstart)
    exact ⟨q, hq, hused.of_isCopy hcopy⟩

/-- An FSM that the comparison can deal with. -/
def Fsm.Usable (f : Fsm) : Prop := f.start.isSome = true ∨ f.statecount = 0

theorem not_usable_iff : ¬ f.Usable ↔ f.start = none ∧ f.statecount ≠ 0 := by
  rw [Fsm.Usable, not_or, Bool.not_eq_true, isSome_eq_false_iff, isNone_iff_eq_none]

/-- No states, no start state, and nothing to determinise. -/
theorem equalEnsureDfa_of_no_states (hf : f.Wf) (h : f.statecount = 0) :
    equalEnsureDfa f = some f ∧ f.IsDfa ∧ f.start = none := by
  have hall : fsmAll f fsmIsdfa = true := by
    rw [fsmAll_eq_true_iff]
    intro s hs
    omega
  refine ⟨if_pos hall, Fsm.isDfa_iff_fsmAll.mpr hall, ?_⟩
  cases hstart : f.start with
  | none => rfl
  | some s =>
    have := hf.start_lt hstart
    omega

/-- States without a start state: `ensure_dfa` fails, or gives a copy that is no DFA either. -/
theorem equalEnsureDfa_of_not_usable (h : ¬ f.Usable) :
    equalEnsureDfa f = none ∨ ∃ q, equalEnsureDfa f = some q ∧ fsmAll q fsmIsdfa ≠ true := by
  obtain ⟨hstart, hcount⟩ := not_usable_iff.mp h
  have hcopy := fsmClone_isCopy f
  have hno : ∀ {q : Fsm}, q.start = none → q.statecount ≠ 0 → fsmAll q fsmIsdfa ≠ true := by
    intro q hq hpos hall
    have hisdfa := fsmIsdfa_eq_true_iff.mp (fsmAll_eq_true_iff.mp hall 0 (pos_of_ne_zero hpos))
    rw [hq] at hisdfa
    exact absurd hisdfa.1 (by decide)
  have hclone : (fsmClone f).start = none := hcopy.start.trans hstart
  unfold equalEnsureDfa
  rw [if_neg (hno hstart hcount), fsmDeterminise_of_start_eq_none hclone]
  split
  · exact .inl rfl
  · exact .inr ⟨_, rfl, hno hclone (hcopy.statecount ▸ hcount)⟩

/-! ## §4 Sizes -/

/-- Numbers that words can tell apart are no more than the values of the words. -/
theorem le_encard_range {α : Type} {φ : List Byte → α} {n : ℕ} {R : ℕ → List Byte → Prop}
    (hex : ∀ p < n, ∃ w, R p w)
    (hinj : ∀ p < n, ∀ p' < n, ∀ w v, R p w → R p' v → φ w = φ v → p = p') :
    (n : ℕ∞) ≤ (Set.range φ).encard := by
  choose! w hw using hex
  have hon : Set.InjOn (fun p => φ (w p)) (Finset.range n : Set ℕ) := by
    intro p hp p' hp' heq
    have hp := mem_range.mp hp
    have hp' := mem_range.mp hp'
    exact hinj p hp p' hp' _ _ (hw p hp) (hw p' hp') heq
  have hcard := hon.encard_image
  rw [Set.encard_coe_eq_coe_finsetCard, card_range] at hcard
  rw [← hcard]
  apply Set.encard_le_encard
  rintro x ⟨p, -, rfl⟩
  exact Set.mem_range_self _

/-- The pairs of sets of states that one word lands in. -/
def landingPairs (a b : Fsm) : Set (Set ℕ × Set ℕ) :=
  Set.range fun w => (a.landing w, b.landing w)

theorem Fsm.Wf.lands_lt (hf : f.Wf) (hs : f.Lands w s) : s < f.statecount := by
  cases hs with
  | start hs => exact hf.start_lt hs
  | symbol _ ht => exact hf.edge_lt ht

/-- There are no more landings than sets of states. -/
theorem encard_landingPairs_le (ha : a.Wf) (hb : b.Wf) :
    (landingPairs a b).encard ≤ ((2 ^ (a.statecount + b.statecount) : ℕ) : ℕ∞) := by
  have hpow : ∀ n, (𝒫 (Finset.range n : Set ℕ)).encard = ((2 ^ n : ℕ) : ℕ∞) := by
    intro n
    rw [← ((Finset.range n).finite_toSet.powerset).cast_ncard_eq,
      Set.ncard_powerset _ (Finset.range n).finite_toSet,
      Set.ncard_coe_finset, card_range]
  have hsub : landingPairs a b ⊆
      𝒫 (Finset.range a.statecount : Set ℕ) ×ˢ 𝒫 (Finset.range b.statecount : Set ℕ) := by
    rintro x ⟨w, rfl⟩
    exact ⟨fun s hs => mem_coe.mpr (mem_range.mpr (ha.lands_lt hs)),
      fun s hs => mem_coe.mpr (mem_range.mpr (hb.lands_lt hs))⟩
  calc (landingPairs a b).encard
      ≤ (𝒫 (Finset.range a.statecount : Set ℕ) ×ˢ 𝒫 (Finset.range b.statecount : Set ℕ)).encard :=
        Set.encard_le_encard hsub
    _ = ((2 ^ (a.statecount + b.statecount) : ℕ) : ℕ∞) := by
        rw [Set.encard_prod, hpow, hpow, pow_add, Nat.cast_mul]

/-- Two FSMs whose comparison needs no state number beyond 24 bits. -/
structure Comparable (a b : Fsm) : Prop where
  wfA : a.Wf
  wfB : b.Wf
  countA : a.statecount ≤ 2 ^ 24
  countB : b.statecount ≤ 2 ^ 24
  pairs : (landingPairs a b).encard ≤ ((2 ^ 24 : ℕ) : ℕ∞)

theorem Comparable.symm (h : Comparable a b) : Comparable b a := by
  refine ⟨h.wfB, h.wfA, h.countB, h.countA, ?_⟩
  have hswap : landingPairs b a = Prod.swap '' landingPairs a b :=
    Set.range_comp Prod.swap fun w => (a.landing w, b.landing w)
  rw [hswap, Prod.swap_injective.encard_image]
  exact h.pairs

theorem comparable_of_le (ha : a.wfCheck = true) (hb : b.wfCheck = true)
    (h : a.statecount + b.statecount ≤ 24) : Comparable a b := by
  have hwfA := Fsm.wf_of_wfCheck ha
  have hwfB := Fsm.wf_of_wfCheck hb
  refine ⟨hwfA, hwfB, by omega, by omega, (encard_landingPairs_le hwfA hwfB).trans ?_⟩
  exact_mod_cast Nat.pow_le_pow_right (by decide) h

theorem UsedDfa.runFrom_eq (h : UsedDfa f q) {s₀ : ℕ} (hs₀ : q.start = some s₀) {v : List Byte}
    (heq : f.landing w = f.landing v) : q.runFrom s₀ w = q.runFrom s₀ v := by
  apply Option.ext
  intro s
  rw [← h.isDfa.active_iff hs₀, ← h.isDfa.active_iff hs₀]
  exact ⟨h.tracks heq, h.tracks heq.symm⟩

/-- The DFA of an operand is no larger than the operand or the number of landings. -/
theorem Comparable.statecount_le (h : Comparable a b) (hq : UsedDfa a q) :
    q.statecount ≤ 2 ^ 24 := by
  rcases hq.size with hsize | hreach
  · exact hsize.le.trans h.countA
  · have hle : (q.statecount : ℕ∞) ≤ (landingPairs a b).encard := by
      apply le_encard_range hreach
      intro p _ p' _ w v hp hp' heq
      exact hq.isDfa.active_unique (hq.tracks (Prod.mk.inj heq).1 hp) hp'
    exact_mod_cast hle.trans h.pairs

/-! ## §5 Subsets -/

/-- The difference of two DFAs in use, when all state numbers fit. -/
theorem fsmEmpty_walk2Product {a' b' : Fsm} (h : Comparable a b) (ha : UsedDfa a a')
    (hb : UsedDfa b b') :
    (fsmEmpty (walk2Product a' b' (fsmWalk2OnlyA ||| fsmWalk2Both) fsmWalk2OnlyA)).1 ≠ 0 ↔
      ∀ w, w ∈ a.language → w ∈ b.language := by
  obtain ⟨sa, hsa⟩ := isSome_iff_exists.mp ha.start
  obtain ⟨sb, hsb⟩ := isSome_iff_exists.mp hb.start
  have hta := transition_eq_next ha.wf ha.isDfa (h.statecount_le ha)
  have htb := transition_eq_next hb.wf hb.isDfa (h.symm.statecount_le hb)
  obtain ⟨q, hq, -, hlang, -⟩ := fsmSubtract_narrow ha.wf hb.wf ha.isDfa hb.isDfa hsa hsb
  rw [fsmSubtract, ensureDfa_of_isDfa ha.isDfa, ensureDfa_of_isDfa hb.isDfa] at hq
  cases (fsmWalk2_of_isDfa ha.isDfa hb.isDfa).symm.trans hq
  obtain ⟨val, hprod⟩ : ∃ val, Product a' b' (fsmWalk2OnlyA ||| fsmWalk2Both) fsmWalk2OnlyA
      (some sa, some sb) (walk2Product a' b' (fsmWalk2OnlyA ||| fsmWalk2Both) fsmWalk2OnlyA) val :=
    fsmWalk2_product ha.wf hb.wf ha.isDfa hb.isDfa hsa hsb
  set q := walk2Product a' b' (fsmWalk2OnlyA ||| fsmWalk2Both) fsmWalk2OnlyA
  -- a combined state is known by the landings of a word that leads to it
  have hsize : q.statecount ≤ 2 ^ 24 := by
    have hle : (q.statecount : ℕ∞) ≤ (landingPairs a b).encard := by
      apply le_encard_range hprod.reached
      intro p hp p' hp' w v hw hv heq
      apply hprod.val_inj p hp p' hp'
      rw [runFrom_subtract, hta, htb] at hw hv
      obtain ⟨hla, hlb⟩ := Prod.mk.inj heq
      have hra : Lib.runFrom a'.next sa w = Lib.runFrom a'.next sa v := ha.runFrom_eq hsa hla
      have hrb : Lib.runFrom b'.next sb w = Lib.runFrom b'.next sb v := hb.runFrom_eq hsb hlb
      rw [hra, hrb, hv] at hw
      exact (some.inj hw).symm
    exact_mod_cast hle.trans h.pairs
  rw [fsmEmpty_ne_zero_iff hprod.wf hsize]
  rw [hta, htb] at hlang
  rw [← ha.language_eq, ← hb.language_eq]
  constructor
  · intro hempty w hw
    by_contra hno
    obtain ⟨s, hs, hend⟩ := (ha.isDfa.mem_language_iff hsa).mp hw
    have hin := (hlang w).mpr ⟨s, hs, hend, fun h => hno ((hb.isDfa.mem_language_iff hsb).mpr h)⟩
    rw [hempty] at hin
    exact Language.notMem_zero w hin
  · intro hsub
    ext w
    refine iff_of_false (fun hw => ?_) (Language.notMem_zero w)
    obtain ⟨s, hs, hend, hnot⟩ := (hlang w).mp hw
    have hb' := hsub w ((ha.isDfa.mem_language_iff hsa).mpr ⟨s, hs, hend⟩)
    exact hnot ((hb.isDfa.mem_language_iff hsb).mp hb')

/-- A DFA for a usable operand: the one in use, or an FSM without states. -/
theorem equalEnsureDfa_of_usable (hf : f.Wf) (hu : f.Usable) :
    ∃ q, equalEnsureDfa f = some q ∧ q.IsDfa ∧
      (UsedDfa f q ∨ (f.start = none ∧ q.start = none)) := by
  rcases hu with hstart | hcount
  · obtain ⟨q, hq, hused⟩ := equalEnsureDfa_of_start hf hstart
    exact ⟨q, hq, hused.isDfa, .inl hused⟩
  · obtain ⟨hq, hdfa, hstart⟩ := equalEnsureDfa_of_no_states hf hcount
    exact ⟨f, hq, hdfa, .inr ⟨hstart, hstart⟩⟩

/-- **The difference is empty exactly when the subset relation holds**, for usable operands. -/
theorem equalSubtract_empty_iff (h : Comparable a b) (hua : a.Usable) (hub : b.Usable) :
    ∃ q, equalSubtract a b = some (some q) ∧
      ((fsmEmpty q).1 ≠ 0 ↔ ∀ w, w ∈ a.language → w ∈ b.language) := by
  obtain ⟨a', ha', hda, hcasesA⟩ := equalEnsureDfa_of_usable h.wfA hua
  obtain ⟨b', hb', hdb, hcasesB⟩ := equalEnsureDfa_of_usable h.wfB hub
  refine ⟨walk2Product a' b' (fsmWalk2OnlyA ||| fsmWalk2Both) fsmWalk2OnlyA, ?_, ?_⟩
  · rw [equalSubtract, ha', hb']
    exact congrArg (Option.map some) (fsmWalk2_of_isDfa hda hdb)
  rcases hcasesA with hused | ⟨hsa, hsa'⟩
  · rcases hcasesB with hused' | ⟨hsb, hsb'⟩
    · exact fsmEmpty_walk2Product h hused hused'
    · -- nothing to subtract: the difference is a copy
      obtain ⟨sa', hsa'⟩ := isSome_iff_exists.mp hused.start
      have hcopy := fsmClone_isCopy a'
      have hwalk : walk2Product a' b' (fsmWalk2OnlyA ||| fsmWalk2Both) fsmWalk2OnlyA =
          fsmClone a' := by
        rw [walk2Product, fsmGetstart, fsmGetstart, hsa', hsb']
        rfl
      rw [hwalk, fsmEmpty_ne_zero_iff (hcopy.wf hused.wf)
        (hcopy.statecount ▸ h.statecount_le hused), hcopy.language_eq, hused.language_eq,
        Fsm.language_eq_zero_of_start_eq_none hsb]
      constructor
      · intro hzero w hw
        rwa [hzero] at hw
      · intro hsub
        ext w
        exact ⟨hsub w, fun hw => absurd hw (Language.notMem_zero w)⟩
  · -- nothing to subtract from: the difference has no start state
    have hwalk : walk2Product a' b' (fsmWalk2OnlyA ||| fsmWalk2Both) fsmWalk2OnlyA = fsmNew := by
      rw [walk2Product, fsmGetstart, hsa']
      cases fsmGetstart b' <;> rfl
    rw [hwalk]
    refine iff_of_true (by decide) fun w hw => ?_
    rw [Fsm.language_eq_zero_of_start_eq_none hsa] at hw
    exact absurd hw (Language.notMem_zero w)

/-! ## §6 Equality -/

/-- A subset test with an operand that is not usable gives -1, or fails an assertion. -/
theorem subsetof_of_not_usable (h : ¬ a.Usable ∨ ¬ b.Usable) :
    subsetof a b = none ∨ subsetof a b = some (-1) := by
  have hfails : ∀ {a b : Fsm}, fsmAll a fsmIsdfa ≠ true ∨ fsmAll b fsmIsdfa ≠ true →
      fsmWalk2 a b (fsmWalk2OnlyA ||| fsmWalk2Both) fsmWalk2OnlyA = none := by
    intro a b hno
    exact if_neg fun hall => hno.elim (fun h => h hall.1) fun h => h hall.2
  unfold subsetof equalSubtract
  rcases h with h | h
  · rcases equalEnsureDfa_of_not_usable h with hnone | ⟨q, hq, hno⟩
    · rw [hnone]
      cases equalEnsureDfa b <;> exact .inr rfl
    · rw [hq]
      cases equalEnsureDfa b with
      | none => exact .inr rfl
      | some b' => exact .inl (by dsimp only; rw [hfails (.inr hno)]; rfl)
  · rcases equalEnsureDfa_of_not_usable h with hnone | ⟨q, hq, hno⟩
    · rw [hnone]
      exact .inr rfl
    · rw [hq]
      cases equalEnsureDfa a with
      | none => exact .inr rfl
      | some a' => exact .inl (by dsimp only; rw [hfails (.inl hno)]; rfl)

/-- The two subset tests together, for usable operands. -/
theorem bothSubsets_of_usable (h : Comparable a b) (hua : a.Usable) (hub : b.Usable) :
    ∃ r, bothSubsets a b = some r ∧ (r = 1 ↔ a.language = b.language) := by
  obtain ⟨q, hq, hsub⟩ := equalSubtract_empty_iff h.symm hub hua
  obtain ⟨q', hq', hsub'⟩ := equalSubtract_empty_iff h hua hub
  have hab : subsetof a b = some (fsmEmpty q).1 := by rw [subsetof, hq]; rfl
  have hba : subsetof b a = some (fsmEmpty q').1 := by rw [subsetof, hq']; rfl
  have hboth : ((fsmEmpty q).1 ≠ 0 ∧ (fsmEmpty q').1 ≠ 0) ↔ a.language = b.language := by
    rw [hsub, hsub']
    constructor
    · intro ⟨h₁, h₂⟩
      ext w
      exact ⟨h₂ w, h₁ w⟩
    · intro heq
      rw [heq]
      exact ⟨fun _ hw => hw, fun _ hw => hw⟩
  refine ⟨if (fsmEmpty q).1 ≠ 0 ∧ (fsmEmpty q').1 ≠ 0 then 1 else 0, ?_, ?_⟩
  · rw [bothSubsets, hab, bind_some, hba]
    split_ifs <;> simp_all
  · rw [← hboth]
    split <;> simp_all

/-- With another operand, they give 1 if they give anything. -/
theorem bothSubsets_of_not_usable (h : ¬ a.Usable ∨ ¬ b.Usable) {r : ℤ}
    (hr : bothSubsets a b = some r) : r = 1 := by
  rcases subsetof_of_not_usable h with hab | hab
  · rw [bothSubsets, hab] at hr
    cases hr
  · rcases subsetof_of_not_usable h.symm with hba | hba
    · rw [bothSubsets, hab, hba] at hr
      cases hr
    · rw [bothSubsets, hab, hba] at hr
      exact (some.inj hr).symm

theorem Fsm.Agrees.landing_eq (h : Fsm.Agrees f g) (w : List Byte) : f.landing w = g.landing w := by
  ext s
  exact Fsm.lands_congr h.start h.edge h.eps

theorem Fsm.Agrees.usable_iff (h : Fsm.Agrees f g) : f.Usable ↔ g.Usable := by
  rw [Fsm.Usable, Fsm.Usable, h.start, h.statecount]

theorem Comparable.of_agrees {a' b' : Fsm} (haa : Fsm.Agrees a' a) (hbb : Fsm.Agrees b' b)
    (h : Comparable a b) : Comparable a' b' := by
  have hpairs : landingPairs a' b' = landingPairs a b := by
    unfold landingPairs
    simp only [haa.landing_eq, hbb.landing_eq]
  exact ⟨haa.symm.wf h.wfA, hbb.symm.wf h.wfB, haa.statecount ▸ h.countA,
    hbb.statecount ▸ h.countB, hpairs ▸ h.pairs⟩

/-- Unless both languages are empty, the subset tests decide, on the FSMs with their marks
cleared. -/
theorem fsmEqual_cases (h : Comparable a b) :
    ((fsmEqual a b).1 = some 1 ∧ a.language = 0 ∧ b.language = 0) ∨
      ((a.language ≠ 0 ∨ b.language ≠ 0) ∧ ∃ a' b', Fsm.Agrees a' a ∧ Fsm.Agrees b' b ∧
        (fsmEqual a b).1 = bothSubsets a' b') := by
  have hemptyA := fsmEmpty_ne_zero_iff h.wfA h.countA
  have hemptyB := fsmEmpty_ne_zero_iff h.wfB h.countB
  have hself : Fsm.Agrees b b :=
    ⟨rfl, rfl, fun _ _ _ => Iff.rfl, fun _ _ => Iff.rfl, fun _ => Iff.rfl, fun _ => rfl,
      fun _ => rfl⟩
  unfold fsmEqual
  dsimp only
  split_ifs with hA hB
  · exact .inl ⟨rfl, hemptyA.mp hA, hemptyB.mp hB⟩
  · exact .inr ⟨.inr fun hz => hB (hemptyB.mpr hz), _, _, fsmEmpty_agrees a,
      fsmEmpty_agrees b, rfl⟩
  · exact .inr ⟨.inl fun hz => hA (hemptyA.mpr hz), _, _, fsmEmpty_agrees a, hself, rfl⟩

/-- The offsets of the sets that a determinisation stores fit 32 bits as well. -/
structure EqualFits (a b : Fsm) : Prop extends Comparable a b where
  offsetsA : fsmAll a fsmIsdfa = true ∨ a.OffsetsFit
  offsetsB : fsmAll b fsmIsdfa = true ∨ b.OffsetsFit

/-- An epsilon edge between two states, and no start state. -/
def startlessFsm : Fsm := fsmAddedgeEpsilon (fsmAddstateBulk fsmNew 2) 0 1

/-- The empty string and nothing else. -/
def emptyStringFsm : Fsm := fsmSetstart (fsmSetend (fsmAddstateBulk fsmNew 1) 0 true) 0

/-- One or more times `a`: an NFA that goes back by an epsilon edge, or a DFA with a loop. -/
def manyFsm (loop : Bool) : Fsm :=
  let f := fsmAddedgeLiteral (fsmSetend (fsmAddstateBulk fsmNew 2) 1 true) 0 1 97
  fsmSetstart (if loop then fsmAddedgeLiteral f 1 1 97 else fsmAddedgeEpsilon f 1 0) 0

end Libfsm
