import Libfsm.Fsm.Semantics
import Libfsm.Re.FailureEdges

/-!
# From A Trie To An FSM

`trie_to_fsm` of `libre/ac.c` and `re_strings_build` of `libre/re_strings.c`.  The conversion
walks the trie depth first; each trie state gets its FSM state when it is first met.

- `trieToFsmState`, `trieToFsm`, `reStringsBuild`: the conversion
- `TrieFsm.Image`: the FSM state that stands for a trie state
- `TrieFsm.Complete`: a trie state whose FSM state has all its edges and marks
- `trieToFsmState_walked`: the conversion completes every state it meets

A trie state with an output and without end IDs is not converted where there is a single end
state: that one stands for all of them.
-/

namespace Libfsm

open Lib Function
open Option hiding none some ext or_assoc

/-! ## §1 The Conversion -/

/-- The FSM under construction, with the members `have_st` and `st` of the trie's states. -/
structure TrieFsm where
  fsm : Fsm
  st : ℕ → Option ℕ := fun _ => none

/-- The trie states that the single end state stands for. -/
def TrieGraph.collapses (g : TrieGraph) (haveEnd : Bool) (ts : ℕ) : Bool :=
  (g.state ts).output && haveEnd && stateSetEmpty (g.state ts).endids

namespace TrieFsm

/-- A new FSM state for a trie state. -/
def enter (d : TrieFsm) (ts : ℕ) : TrieFsm where
  fsm := (fsmAddstate d.fsm).2
  st := update d.st ts (some d.fsm.statecount)

/-- `fsm_addedge_literal` -/
def addEdge (d : TrieFsm) (src dst : ℕ) (c : Byte) : TrieFsm :=
  { d with fsm := fsmAddedgeLiteral d.fsm src dst c }

/-- The end mark and the end IDs, at the end of `trie_to_fsm_state`. -/
def finish (d : TrieFsm) (ts : TrieState) (st : ℕ) : TrieFsm :=
  if ts.output then
    { d with
      fsm := { fsmSetend d.fsm st true with
        endidInfo := ts.endids.toList.foldl (fun m id => endidSet m st id) d.fsm.endidInfo } }
  else d

end TrieFsm

section Conversion

variable (g : TrieGraph) (haveEnd : Bool) (singleEnd : ℕ)

/-- The body of the loop over the symbols: the destination's state, and the edge to it. -/
def trieEdge (walk : TrieFsm → ℕ → ℕ × TrieFsm) (ts st : ℕ) (d : TrieFsm) (sym : Byte) : TrieFsm :=
  match findNextState g ts sym with
  | none => d
  | some nx =>
    let (dst, d) := walk d nx
    d.addEdge st dst sym

/-- `trie_to_fsm_state`: the state for `ts`, and the FSM with it. -/
def trieToFsmState : ℕ → TrieFsm → ℕ → ℕ × TrieFsm
  -- the recursion goes to trie states not met before; `fuel` bounds its depth
  | 0, d, _ => (singleEnd, d)
  | fuel + 1, d, ts =>
    if g.collapses haveEnd ts then (singleEnd, d)
    else
      match d.st ts with
      | some st => (st, d)
      | none =>
        (d.fsm.statecount,
          ((List.finRange 256).foldl (trieEdge g (trieToFsmState fuel) ts d.fsm.statecount)
            (d.enter ts)).finish (g.state ts) d.fsm.statecount)

def trieToFsm (f : Fsm) : Fsm :=
  let (start, d) := trieToFsmState g haveEnd singleEnd (g.nstates + 1) { fsm := f } 0
  fsmSetstart d.fsm start

end Conversion

/-- `enum re_strings_flags` -/
structure ReStringsFlags where
  anchorLeft : Bool
  anchorRight : Bool
  acAutomaton : Bool := false
  deriving DecidableEq

/-- The FSM with the single end state, which loops on every symbol. -/
def singleEndFsm : Fsm := fsmAddedgeAny (fsmSetend (fsmAddstate fsmNew).2 0 true) 0 0

/-- Whether `re_strings_build` makes a single end state. -/
def ReStringsFlags.haveEnd (flags : ReStringsFlags) : Bool :=
  !flags.acAutomaton && !flags.anchorRight

def reStringsBuild (g : TrieGraph) (flags : ReStringsFlags) : Fsm :=
  let g := if flags.anchorLeft then g else trieAddFailureEdges g
  if flags.haveEnd then trieToFsm g true 0 singleEndFsm
  -- without a single end state, its number is `(unsigned) -1`
  else trieToFsm g false (2 ^ 32 - 1) fsmNew

/-! ## §2 One State -/

namespace TrieFsm

variable {g : TrieGraph} {haveEnd : Bool} {singleEnd base : ℕ} {d d' d'' : TrieFsm}

/-- The FSM state that stands for a trie state. -/
def Image (g : TrieGraph) (haveEnd : Bool) (singleEnd : ℕ) (d : TrieFsm) (n s : ℕ) : Prop :=
  if g.collapses haveEnd n then s = singleEnd else d.st n = some s

theorem Image.unique {n s s' : ℕ} (h : Image g haveEnd singleEnd d n s)
    (h' : Image g haveEnd singleEnd d n s') : s = s' := by
  unfold Image at h h'
  split at h
  · rename_i hc
    rw [if_pos hc] at h'
    exact h.trans h'.symm
  · rename_i hc
    rw [if_neg hc] at h'
    exact Option.some.inj (h.symm.trans h')

/-- A trie state whose FSM state has all its edges and marks. -/
structure Complete (g : TrieGraph) (haveEnd : Bool) (singleEnd : ℕ) (d : TrieFsm) (n s : ℕ) :
    Prop where
  edge : ∀ c t, d.fsm.Edge s c t ↔ ∃ m, findNextState g n c = some m ∧
    Image g haveEnd singleEnd d m t
  image : ∀ c m, findNextState g n c = some m → ∃ t, Image g haveEnd singleEnd d m t
  isEnd : d.fsm.IsEnd s ↔ (g.state n).output = true
  endids : ∀ i, i ∈ d.fsm.endidInfo.get s ↔ (g.state n).output = true ∧ i ∈ (g.state n).endids

/-- What holds of the data at every point of the walk.  The states below `base` were there
before. -/
structure Inv (g : TrieGraph) (haveEnd : Bool) (base : ℕ) (d : TrieFsm) : Prop where
  st_lt : ∀ {n s}, d.st n = some s → base ≤ s ∧ s < d.fsm.statecount
  st_inj : ∀ {n n' s}, d.st n = some s → d.st n' = some s → n = n'
  covers : ∀ {s}, base ≤ s → s < d.fsm.statecount → ∃ n, d.st n = some s
  bounded : ∀ {n s}, d.st n = some s → n < g.nstates ∧ g.collapses haveEnd n = false
  not_eps : ∀ s t, ¬ d.fsm.Eps s t
  below : d.fsm.endidInfo.Below d.fsm.statecount

/-- A later point of the walk: nothing already there has changed. -/
structure Extends (d d' : TrieFsm) : Prop where
  count : d.fsm.statecount ≤ d'.fsm.statecount
  st : ∀ {n s}, d.st n = some s → d'.st n = some s
  state : ∀ s < d.fsm.statecount, d'.fsm.state s = d.fsm.state s
  endids : ∀ s < d.fsm.statecount, d'.fsm.endidInfo.get s = d.fsm.endidInfo.get s

theorem Extends.refl (d : TrieFsm) : Extends d d :=
  ⟨le_refl _, id, fun _ _ => rfl, fun _ _ => rfl⟩

theorem Extends.trans (h : Extends d d') (h' : Extends d' d'') : Extends d d'' where
  count := h.count.trans h'.count
  st hs := h'.st (h.st hs)
  state s hs := (h'.state s (lt_of_lt_of_le hs h.count)).trans (h.state s hs)
  endids s hs := (h'.endids s (lt_of_lt_of_le hs h.count)).trans (h.endids s hs)

theorem Image.mono {n s : ℕ} (h : Image g haveEnd singleEnd d n s)
    (hst : ∀ {n s}, d.st n = some s → d'.st n = some s) :
    Image g haveEnd singleEnd d' n s := by
  unfold Image at h ⊢
  split
  · rename_i hc
    rwa [if_pos hc] at h
  · rename_i hc
    rw [if_neg hc] at h
    exact hst h

/-- Completeness depends on the state's record and end IDs, and on images that only grow. -/
theorem Complete.mono {n s : ℕ} (h : Complete g haveEnd singleEnd d n s)
    (hst : ∀ {n s}, d.st n = some s → d'.st n = some s)
    (hstate : d'.fsm.state s = d.fsm.state s)
    (hids : d'.fsm.endidInfo.get s = d.fsm.endidInfo.get s) :
    Complete g haveEnd singleEnd d' n s where
  edge c t := by
    rw [Fsm.Edge, hstate, ← Fsm.Edge, h.edge]
    constructor
    · rintro ⟨m, hm, ht⟩
      exact ⟨m, hm, ht.mono hst⟩
    · rintro ⟨m, hm, ht⟩
      -- the destination had its image before
      obtain ⟨t', ht'⟩ := h.image c m hm
      exact ⟨m, hm, (ht'.mono hst).unique ht ▸ ht'⟩
  image c m hm := by
    obtain ⟨t, ht⟩ := h.image c m hm
    exact ⟨t, ht.mono hst⟩
  isEnd := by rw [Fsm.IsEnd, hstate, ← Fsm.IsEnd, h.isEnd]
  endids i := by rw [hids, h.endids]

/-- A state entered is new, and has nothing yet. -/
theorem Inv.enter {ts : ℕ} (h : Inv g haveEnd base d) (hbase : base ≤ d.fsm.statecount)
    (hts : ts < g.nstates) (hc : g.collapses haveEnd ts = false) (hnone : d.st ts = none) :
    Inv g haveEnd base (d.enter ts) := by
  have hst : ∀ {n s}, (d.enter ts).st n = some s →
      (n = ts ∧ s = d.fsm.statecount) ∨ (n ≠ ts ∧ d.st n = some s) := by
    intro n s hs
    by_cases hn : n = ts
    · subst hn
      have hs' : some d.fsm.statecount = some s := by
        simpa only [TrieFsm.enter, update_self] using hs
      exact .inl ⟨rfl, (Option.some.inj hs').symm⟩
    · exact .inr ⟨hn, by simpa only [TrieFsm.enter, update_of_ne hn] using hs⟩
  have hcount : (d.enter ts).fsm.statecount = d.fsm.statecount + 1 :=
    statecount_fsmAddstate d.fsm
  refine ⟨?_, ?_, ?_, ?_, ?_, ?_⟩
  · intro n s hs
    rw [hcount]
    rcases hst hs with ⟨-, rfl⟩ | ⟨-, hs⟩
    · exact ⟨hbase, Nat.lt_succ_self _⟩
    · exact ⟨(h.st_lt hs).1, Nat.lt_succ_of_lt (h.st_lt hs).2⟩
  · intro n n' s hs hs'
    rcases hst hs with ⟨hn, hs₁⟩ | ⟨-, hs₁⟩ <;> rcases hst hs' with ⟨hn', hs₂⟩ | ⟨-, hs₂⟩
    · exact hn.trans hn'.symm
    · exact absurd (hs₁ ▸ (h.st_lt hs₂).2) (lt_irrefl _)
    · exact absurd (hs₂ ▸ (h.st_lt hs₁).2) (lt_irrefl _)
    · exact h.st_inj hs₁ hs₂
  · intro s hs hlt
    rw [hcount] at hlt
    rcases Nat.lt_succ_iff_lt_or_eq.mp hlt with hlt | rfl
    · obtain ⟨n, hn⟩ := h.covers hs hlt
      have hne : n ≠ ts := by
        rintro rfl
        rw [hnone] at hn
        cases hn
      exact ⟨n, by simpa only [TrieFsm.enter, update_of_ne hne] using hn⟩
    · exact ⟨ts, update_self _ _ _⟩
  · intro n s hs
    rcases hst hs with ⟨rfl, -⟩ | ⟨-, hs⟩
    · exact ⟨hts, hc⟩
    · exact h.bounded hs
  · intro s t hst
    rw [Fsm.Eps, TrieFsm.enter, state_fsmAddstate] at hst
    exact h.not_eps s t hst
  · intro s hs
    rw [hcount] at hs
    exact h.below s (Nat.le_of_succ_le hs)

/-- Adding an edge out of one state leaves all else as it is. -/
theorem state_addEdge_ne {src dst s : ℕ} {c : Byte} (h : s ≠ src) :
    (d.addEdge src dst c).fsm.state s = d.fsm.state s :=
  Fsm.state_modifyState_ne h _

theorem edge_addEdge {src dst : ℕ} {c : Byte} (h : src < d.fsm.statecount) (e : Byte) (t : ℕ) :
    (d.addEdge src dst c).fsm.Edge src e t ↔ d.fsm.Edge src e t ∨ (t = dst ∧ e = c) := by
  rw [addEdge, edge_fsmAddedgeLiteral h, and_iff_right rfl]

theorem Inv.addEdge (h : Inv g haveEnd base d) (src dst : ℕ) (c : Byte) :
    Inv g haveEnd base (d.addEdge src dst c) := by
  have hcount : (d.addEdge src dst c).fsm.statecount = d.fsm.statecount :=
    d.fsm.statecount_modifyState src _
  refine ⟨?_, h.st_inj, ?_, h.bounded, ?_, ?_⟩
  · rw [hcount]
    exact h.st_lt
  · rw [hcount]
    exact h.covers
  · intro s t
    rw [TrieFsm.addEdge, fsmAddedgeLiteral, Fsm.eps_modifyState]
    · exact h.not_eps s t
    · exact fun _ => rfl
  · rw [hcount]
    exact h.below

/-! ## §3 The Walk -/

/-- What a call on the trie state `ts` does. -/
structure Walked (g : TrieGraph) (haveEnd : Bool) (singleEnd base : ℕ) (d : TrieFsm) (ts : ℕ)
    (r : ℕ × TrieFsm) : Prop where
  inv : Inv g haveEnd base r.2
  ext : Extends d r.2
  image : Image g haveEnd singleEnd r.2 ts r.1
  complete : ∀ {n s}, d.st n = none → r.2.st n = some s → Complete g haveEnd singleEnd r.2 n s

/-- The loop over the symbols at work on the trie state `ts`, entered from `d₀`: the symbols
of `done` have their edges. -/
structure Busy (g : TrieGraph) (haveEnd : Bool) (singleEnd base : ℕ) (d₀ : TrieFsm) (ts : ℕ)
    (done : Byte → Prop) (d : TrieFsm) : Prop where
  inv : Inv g haveEnd base d
  ext : Extends d₀ d
  self : d.st ts = some d₀.fsm.statecount
  complete : ∀ {n s}, d₀.st n = none → n ≠ ts → d.st n = some s →
    Complete g haveEnd singleEnd d n s
  edge : ∀ c t, d.fsm.Edge d₀.fsm.statecount c t ↔ done c ∧ ∃ m, findNextState g ts c = some m ∧
    Image g haveEnd singleEnd d m t
  image : ∀ c, done c → ∀ m, findNextState g ts c = some m → ∃ t, Image g haveEnd singleEnd d m t
  not_end : ¬ d.fsm.IsEnd d₀.fsm.statecount
  endids : d.fsm.endidInfo.get d₀.fsm.statecount = []

variable {d₀ : TrieFsm} {ts : ℕ} {done : Byte → Prop}

theorem Inv.busy (h : Inv g haveEnd base d) (hbase : base ≤ d.fsm.statecount)
    (hts : ts < g.nstates) (hc : g.collapses haveEnd ts = false) (hnone : d.st ts = none) :
    Busy g haveEnd singleEnd base d ts (fun _ => False) (d.enter ts) := by
  have hfresh : (d.enter ts).fsm.state d.fsm.statecount = .fresh := by
    rw [TrieFsm.enter, state_fsmAddstate, Fsm.state_of_le (le_refl _)]
  have hst : ∀ {n s}, n ≠ ts → ((d.enter ts).st n = some s ↔ d.st n = some s) := by
    intro n s hn
    simp only [TrieFsm.enter, update_of_ne hn]
  refine ⟨h.enter hbase hts hc hnone, ⟨?_, ?_, ?_, fun _ _ => rfl⟩, update_self _ _ _, ?_,
    ?_, ?_, ?_, h.below _ (le_refl _)⟩
  · rw [TrieFsm.enter, statecount_fsmAddstate]
    exact Nat.le_succ _
  · intro n s hs
    refine (hst ?_).mpr hs
    rintro rfl
    rw [hnone] at hs
    cases hs
  · intro s _
    exact state_fsmAddstate d.fsm s
  · intro n s hn hne hs
    rw [hst hne, hn] at hs
    cases hs
  · intro c t
    rw [Fsm.Edge, hfresh]
    simp
  · intro c hdone
    exact absurd hdone not_false
  · rw [Fsm.IsEnd, hfresh]
    exact Bool.false_ne_true

/-- A symbol without a move asks for no edge. -/
theorem Busy.skip (h : Busy g haveEnd singleEnd base d₀ ts done d) {sym : Byte}
    (hnext : findNextState g ts sym = none) :
    Busy g haveEnd singleEnd base d₀ ts (fun c => done c ∨ c = sym) d := by
  refine { h with edge := ?_, image := ?_ }
  · intro c t
    rw [h.edge]
    constructor
    · intro ⟨hdone, hm⟩
      exact ⟨.inl hdone, hm⟩
    · intro ⟨hdone, m, hm, ht⟩
      rcases hdone with hdone | rfl
      · exact ⟨hdone, m, hm, ht⟩
      · rw [hnext] at hm
        cases hm
  · intro c hdone m hm
    rcases hdone with hdone | rfl
    · exact h.image c hdone m hm
    · rw [hnext] at hm
      cases hm

/-- An edge to the state that the recursive call returns. -/
theorem Busy.follow (h : Busy g haveEnd singleEnd base d₀ ts done d) {sym : Byte} {nx dst : ℕ}
    {d₁ : TrieFsm} (hnext : findNextState g ts sym = some nx)
    (hw : Walked g haveEnd singleEnd base d nx (dst, d₁)) :
    Busy g haveEnd singleEnd base d₀ ts (fun c => done c ∨ c = sym)
      (d₁.addEdge d₀.fsm.statecount dst sym) := by
  have hlt : d₀.fsm.statecount < d.fsm.statecount := (h.inv.st_lt h.self).2
  have hlt₁ : d₀.fsm.statecount < d₁.fsm.statecount := lt_of_lt_of_le hlt hw.ext.count
  have hself : d₁.st ts = some d₀.fsm.statecount := hw.ext.st h.self
  have hstate : d₁.fsm.state d₀.fsm.statecount = d.fsm.state d₀.fsm.statecount :=
    hw.ext.state _ hlt
  have hcount : (d₁.addEdge d₀.fsm.statecount dst sym).fsm.statecount = d₁.fsm.statecount :=
    d₁.fsm.statecount_modifyState _ _
  have hextends := h.ext.trans hw.ext
  refine ⟨hw.inv.addEdge _ _ _, ⟨?_, hextends.st, ?_, hextends.endids⟩, hself, ?_, ?_, ?_, ?_, ?_⟩
  · rw [hcount]
    exact hextends.count
  · intro s hs
    rw [state_addEdge_ne (ne_of_lt hs)]
    exact hextends.state s hs
  · intro n s hn hne hs
    -- `n` was met before the call or by it; either way it is not `ts`
    have hs₁ : d₁.st n = some s := hs
    have hsne : s ≠ d₀.fsm.statecount := by
      rintro rfl
      exact hne (hw.inv.st_inj hs₁ hself)
    have hcomplete : Complete g haveEnd singleEnd d₁ n s := by
      rcases hdn : d.st n with _ | s'
      · exact hw.complete hdn hs₁
      · cases (hw.ext.st hdn).symm.trans hs₁
        have hs' := (h.inv.st_lt hdn).2
        exact (h.complete hn hne hdn).mono hw.ext.st (hw.ext.state _ hs') (hw.ext.endids _ hs')
    exact hcomplete.mono id (state_addEdge_ne hsne) rfl
  · intro c t
    rw [edge_addEdge hlt₁, Fsm.Edge, hstate, ← Fsm.Edge, h.edge]
    constructor
    · rintro (⟨hdone, m, hm, ht⟩ | ⟨rfl, rfl⟩)
      · exact ⟨.inl hdone, m, hm, ht.mono hw.ext.st⟩
      · exact ⟨.inr rfl, nx, hnext, hw.image⟩
    · rintro ⟨hdone | rfl, m, hm, ht⟩
      · obtain ⟨t', ht'⟩ := h.image c hdone m hm
        obtain rfl : t' = t := (ht'.mono hw.ext.st).unique ht
        exact .inl ⟨hdone, m, hm, ht'⟩
      · cases hnext.symm.trans hm
        exact .inr ⟨Image.unique ht hw.image, rfl⟩
  · rintro c (hdone | rfl) m hm
    · obtain ⟨t, ht⟩ := h.image c hdone m hm
      exact ⟨t, ht.mono hw.ext.st⟩
    · cases hnext.symm.trans hm
      exact ⟨dst, hw.image⟩
  · rw [Fsm.IsEnd, TrieFsm.addEdge, fsmAddedgeLiteral, Fsm.state_modifyState_self hlt₁, hstate]
    exact h.not_end
  · exact (hw.ext.endids _ hlt).trans h.endids

/-- One round of the loop, given what the recursive call does. -/
theorem Busy.trieEdge (h : Busy g haveEnd singleEnd base d₀ ts done d)
    {walk : TrieFsm → ℕ → ℕ × TrieFsm}
    (hwalk : ∀ c m, findNextState g ts c = some m →
      Walked g haveEnd singleEnd base d m (walk d m)) (sym : Byte) :
    Busy g haveEnd singleEnd base d₀ ts (fun c => done c ∨ c = sym)
      (trieEdge g walk ts d₀.fsm.statecount d sym) := by
  unfold Libfsm.trieEdge
  split
  · rename_i hnext
    exact h.skip hnext
  · rename_i nx hnext
    exact h.follow hnext (hwalk sym nx hnext)

/-- The marks at the end touch the state at hand only. -/
theorem finish_spec (d : TrieFsm) (ts : TrieState) {s : ℕ} (hs : s < d.fsm.statecount) :
    (d.finish ts s).st = d.st ∧ (d.finish ts s).fsm.statecount = d.fsm.statecount ∧
      (∀ t ≠ s, (d.finish ts s).fsm.state t = d.fsm.state t) ∧
      (∀ t ≠ s, (d.finish ts s).fsm.endidInfo.get t = d.fsm.endidInfo.get t) ∧
      ((d.finish ts s).fsm.state s).edges = (d.fsm.state s).edges ∧
      ((d.finish ts s).fsm.state s).epsilons = (d.fsm.state s).epsilons ∧
      ((d.finish ts s).fsm.IsEnd s ↔ ts.output = true ∨ d.fsm.IsEnd s) ∧
      ∀ i, i ∈ (d.finish ts s).fsm.endidInfo.get s ↔
        (ts.output = true ∧ i ∈ ts.endids) ∨ i ∈ d.fsm.endidInfo.get s := by
  unfold finish
  split
  · rename_i hout
    have hself : (fsmSetend d.fsm s true).state s = { d.fsm.state s with isEnd := true } := by
      rw [state_fsmSetend, if_pos ⟨rfl, hs⟩]
    refine ⟨rfl, statecount_fsmSetend _ _ _, ?_, ?_, ?_, ?_, ?_, ?_⟩
    · intro t ht
      show (fsmSetend d.fsm s true).state t = d.fsm.state t
      rw [state_fsmSetend, if_neg fun h => ht h.1]
    · intro t ht
      exact get_foldl_endidSet_ne _ ht
    · show ((fsmSetend d.fsm s true).state s).edges = _
      rw [hself]
    · show ((fsmSetend d.fsm s true).state s).epsilons = _
      rw [hself]
    · refine iff_of_true ?_ (.inl hout)
      show ((fsmSetend d.fsm s true).state s).isEnd = true
      rw [hself]
    · intro i
      simp only [mem_get_foldl_endidSet, true_and, hout, mem_stateSet]
  · rename_i hout
    simp [hout]

/-- The end of the loop: the marks complete the state. -/
theorem Busy.finish (h : Busy g haveEnd singleEnd base d₀ ts (fun _ => True) d) :
    Walked g haveEnd singleEnd base d₀ ts
      (d₀.fsm.statecount, d.finish (g.state ts) d₀.fsm.statecount) := by
  have hlt : d₀.fsm.statecount < d.fsm.statecount := (h.inv.st_lt h.self).2
  obtain ⟨hst, hcount, hstate, hids, hedges, heps, hend, hids'⟩ :=
    d.finish_spec (g.state ts) hlt
  have hnotc := (h.inv.bounded h.self).2
  -- only the marks and the IDs of the one state change
  generalize d.finish (g.state ts) d₀.fsm.statecount = d₁ at *
  have himage : ∀ {n s}, d.st n = some s → d₁.st n = some s := by
    intro n s hs
    rw [hst]
    exact hs
  refine ⟨⟨?_, ?_, ?_, ?_, ?_, ?_⟩, ⟨?_, ?_, ?_, ?_⟩, ?_, ?_⟩
  · rw [hst, hcount]
    exact h.inv.st_lt
  · rw [hst]
    exact h.inv.st_inj
  · rw [hst, hcount]
    exact h.inv.covers
  · rw [hst]
    exact h.inv.bounded
  · intro s t
    by_cases hs : s = d₀.fsm.statecount
    · rw [Fsm.Eps, hs, heps]
      exact h.inv.not_eps _ t
    · rw [Fsm.Eps, hstate s hs]
      exact h.inv.not_eps s t
  · intro s hs
    rw [hcount] at hs
    rw [hids s (ne_of_gt (lt_of_lt_of_le hlt hs))]
    exact h.inv.below s hs
  · rw [hcount]
    exact h.ext.count
  · intro n s hs
    exact himage (h.ext.st hs)
  · intro s hs
    rw [hstate s (ne_of_lt hs)]
    exact h.ext.state s hs
  · intro s hs
    rw [hids s (ne_of_lt hs)]
    exact h.ext.endids s hs
  · unfold Image
    rw [hnotc]
    exact himage h.self
  · intro n s hn hs
    have hs' : d.st n = some s := by
      rw [← hst]
      exact hs
    -- the other trie states were complete before
    by_cases hnts : n = ts
    · subst hnts
      cases hs'.symm.trans h.self
      have himage_iff : ∀ m t, Image g haveEnd singleEnd d m t ↔
          Image g haveEnd singleEnd d₁ m t := by
        intro m t
        unfold Image
        rw [hst]
      refine ⟨?_, ?_, ?_, ?_⟩
      · intro c t
        rw [Fsm.Edge, hedges, ← Fsm.Edge, h.edge]
        simp only [true_and, himage_iff]
      · intro c m hm
        obtain ⟨t, ht⟩ := h.image c trivial m hm
        exact ⟨t, (himage_iff m t).mp ht⟩
      · rw [hend, or_iff_left h.not_end]
      · intro i
        rw [hids', h.endids]
        simp
    · have hsne : s ≠ d₀.fsm.statecount := by
        rintro rfl
        exact hnts (h.inv.st_inj hs' h.self)
      exact (h.complete hn hnts hs').mono himage (hstate s hsne) (hids s hsne)

/-- The trie states not met so far. -/
def unmet (g : TrieGraph) (d : TrieFsm) : Finset ℕ :=
  (Finset.range g.nstates).filter fun n => d.st n = none

theorem Busy.card_unmet_lt (h : Busy g haveEnd singleEnd base d₀ ts done d)
    (hnone : d₀.st ts = none) : (unmet g d).card < (unmet g d₀).card := by
  apply Finset.card_lt_card
  refine Finset.ssubset_iff_of_subset ?_ |>.mpr ⟨ts, ?_, ?_⟩
  · intro n hn
    simp only [unmet, Finset.mem_filter] at hn ⊢
    refine ⟨hn.1, ?_⟩
    rcases hd : d₀.st n with _ | s
    · rfl
    · rw [h.ext.st hd] at hn
      exact absurd hn.2 (some_ne_none s)
  · simp [unmet, hnone, (h.inv.bounded h.self).1]
  · simp [unmet, h.self]

/-- **Every call completes the states it meets.** -/
theorem trieToFsmState_walked
    (hclosed : ∀ n < g.nstates, ∀ c m, findNextState g n c = some m → m < g.nstates)
    {fuel : ℕ} (h : Inv g haveEnd base d) (hbase : base ≤ d.fsm.statecount)
    (hts : ts < g.nstates) (hfuel : (unmet g d).card < fuel) :
    Walked g haveEnd singleEnd base d ts (trieToFsmState g haveEnd singleEnd fuel d ts) := by
  induction fuel generalizing d ts with
  | zero => cases hfuel
  | succ fuel ih =>
    rw [trieToFsmState]
    split
    · rename_i hc
      refine ⟨h, Extends.refl d, ?_, ?_⟩
      · unfold Image
        rw [if_pos hc]
      · intro n s hn hs
        rw [hn] at hs
        cases hs
    · rename_i hc
      rcases hst : d.st ts with _ | s
      · have hc' : g.collapses haveEnd ts = false := Bool.eq_false_iff.mpr hc
        -- the loop over the symbols, round by round
        have hloop : ∀ (l : List Byte) (done : Byte → Prop) (d' : TrieFsm),
            Busy g haveEnd singleEnd base d ts done d' →
            Busy g haveEnd singleEnd base d ts (fun c => done c ∨ c ∈ l)
              (l.foldl (trieEdge g (trieToFsmState g haveEnd singleEnd fuel) ts d.fsm.statecount)
                d') := by
          intro l
          induction l with
          | nil =>
            simp
          | cons c l ihl =>
            intro done d' hd'
            have hcard := hd'.card_unmet_lt hst
            have hwalk : ∀ e m, findNextState g ts e = some m → Walked g haveEnd singleEnd base d'
                m (trieToFsmState g haveEnd singleEnd fuel d' m) := fun e m hm =>
              ih hd'.inv (hbase.trans hd'.ext.count) (hclosed ts hts e m hm) (by omega)
            have hround := hd'.trieEdge hwalk c
            simpa only [List.foldl_cons, List.mem_cons, or_assoc] using ihl _ _ hround
        have hall := hloop (List.finRange 256) _ _ (h.busy hbase hts hc' hst)
        simp only [List.mem_finRange, or_true] at hall
        exact hall.finish
      · refine ⟨h, Extends.refl d, ?_, ?_⟩
        · unfold Image
          rw [if_neg hc]
          exact hst
        · intro n s hn hs
          rw [hn] at hs
          cases hs

end TrieFsm

/-! ## §4 The Machine That Is Built -/

/-- The FSM the conversion starts from: empty, or with the single end state. -/
structure EndBase (haveEnd : Bool) (singleEnd : ℕ) (f : Fsm) : Prop where
  only : ∀ s < f.statecount, haveEnd = true ∧ s = singleEnd
  single : haveEnd = true → singleEnd < f.statecount ∧ f.IsEnd singleEnd ∧
    ∀ c t, f.Edge singleEnd c t ↔ t = singleEnd
  not_eps : ∀ s t, ¬ f.Eps s t
  endids : ∀ s, f.endidInfo.get s = []

theorem endBase_fsmNew (singleEnd : ℕ) : EndBase false singleEnd fsmNew where
  only s hs := absurd hs (Nat.not_lt_zero s)
  single h := absurd h Bool.false_ne_true
  not_eps s _ h := absurd h.source_lt (Nat.not_lt_zero s)
  endids s := IdTable.get_empty s

theorem endBase_singleEndFsm : EndBase true 0 singleEndFsm := by
  have hcount : singleEndFsm.statecount = 1 := by
    rw [singleEndFsm, fsmAddedgeAny_eq]
    rfl
  have hstate : singleEndFsm.state 0 =
      { FsmState.fresh with
        isEnd := true, edges := edgeSetAddAll .null (List.finRange 256) 0 } := by
    rw [singleEndFsm, fsmAddedgeAny_eq]
    rfl
  refine ⟨?_, ?_, ?_, ?_⟩
  · intro s hs
    rw [hcount] at hs
    exact ⟨rfl, Nat.lt_one_iff.mp hs⟩
  · intro _
    refine ⟨by rw [hcount]; exact Nat.zero_lt_one, ?_, ?_⟩
    · rw [Fsm.IsEnd, hstate]
    · intro c t
      rw [Fsm.Edge, hstate]
      simp [hasEdge_edgeSetAddAll]
  · intro s t hst
    have hs : s = 0 := by
      have := hst.source_lt
      rw [hcount] at this
      exact Nat.lt_one_iff.mp this
    rw [Fsm.Eps, hs, hstate] at hst
    exact notMem_null t hst
  · intro s
    rw [singleEndFsm, fsmAddedgeAny_eq]
    exact IdTable.get_empty s

/-- The state of the machine for a trie state; `none` is the single end state. -/
def TrieGraph.position (g : TrieGraph) (haveEnd : Bool) (n : ℕ) : Option ℕ :=
  if g.collapses haveEnd n then none else some n

/-- The moves of the machine.  The single end state is never left. -/
def TrieGraph.move (g : TrieGraph) (haveEnd : Bool) : Option ℕ → Byte → Option (Option ℕ)
  | none, _ => some none
  | some n, c => (findNextState g n c).map (g.position haveEnd)

/-- The FSM is the machine: its states stand for positions, and the end marks and end IDs are
those of the trie. -/
structure Converted (g : TrieGraph) (haveEnd : Bool) (q : Fsm) (node : ℕ → Option ℕ) : Prop where
  isDfa : q.IsDfa
  realises : Realises q.toNfa {s | s < q.statecount} (g.move haveEnd) (g.position haveEnd 0) node
  node_lt : ∀ {s n}, node s = some n → n < g.nstates
  isEnd : ∀ s < q.statecount, q.IsEnd s ↔ ∀ n, node s = some n → (g.state n).output = true
  endids : ∀ s < q.statecount, ∀ i, i ∈ q.endidInfo.get s ↔
    ∃ n, node s = some n ∧ (g.state n).output = true ∧ i ∈ (g.state n).endids

namespace TrieFsm

/-- A finished conversion with the trie state that each state stands for.  The only state that
stands for none is the single end state, which keeps its edges and marks. -/
structure Named (g : TrieGraph) (haveEnd : Bool) (singleEnd base : ℕ) (d : TrieFsm)
    (node : ℕ → Option ℕ) : Prop where
  inv : Inv g haveEnd base d
  complete : ∀ {n s}, d.st n = some s → Complete g haveEnd singleEnd d n s
  node_iff : ∀ {n s}, node s = some n ↔ d.st n = some s
  unnamed : ∀ s < d.fsm.statecount, node s = none → haveEnd = true ∧ s = singleEnd
  single : haveEnd = true → singleEnd < d.fsm.statecount ∧ node singleEnd = none ∧
    d.fsm.IsEnd singleEnd ∧ (∀ c t, d.fsm.Edge singleEnd c t ↔ t = singleEnd) ∧
    d.fsm.endidInfo.get singleEnd = []

open Classical in
/-- The conversion of a trie whose states have all been entered from `f`. -/
theorem Walked.exists_named {f : Fsm} {r : ℕ × TrieFsm}
    (hw : Walked g haveEnd singleEnd f.statecount { fsm := f } 0 r)
    (hf : EndBase haveEnd singleEnd f) :
    ∃ node, Named g haveEnd singleEnd f.statecount r.2 node := by
  have hnode : ∀ {n s}, (if h : ∃ n, r.2.st n = some s then some h.choose else none) = some n ↔
      r.2.st n = some s := by
    intro n s
    constructor
    · intro hs
      split at hs
      · rename_i hex
        cases hs
        exact hex.choose_spec
      · cases hs
    · intro hs
      have hex : ∃ n, r.2.st n = some s := ⟨n, hs⟩
      rw [dif_pos hex, hw.inv.st_inj hex.choose_spec hs]
  refine ⟨fun s => if h : ∃ n, r.2.st n = some s then some h.choose else none, hw.inv,
    fun hs => hw.complete rfl hs, hnode, fun s hs hn => ?_, fun htrue => ?_⟩
  · rcases lt_or_ge s f.statecount with hlt | hge
    · exact hf.only s hlt
    · obtain ⟨n, hn'⟩ := hw.inv.covers hge hs
      exact absurd (hnode.mpr hn') (by rw [hn]; exact nofun)
  · -- the single end state was there before, and nothing touches it
    obtain ⟨hlt, hisEnd, hedge⟩ := hf.single htrue
    have hstate : r.2.fsm.state singleEnd = f.state singleEnd := hw.ext.state singleEnd hlt
    refine ⟨lt_of_lt_of_le hlt hw.ext.count, ?_, ?_, ?_, ?_⟩
    · refine dif_neg fun ⟨n, hn⟩ => ?_
      exact absurd (hw.inv.st_lt hn).1 (Nat.not_le_of_gt hlt)
    · rw [Fsm.IsEnd, hstate]
      exact hisEnd
    · intro c t
      rw [Fsm.Edge, hstate]
      exact hedge c t
    · exact (hw.ext.endids singleEnd hlt).trans (hf.endids singleEnd)

section Named

variable {node : ℕ → Option ℕ} (h : Named g haveEnd singleEnd base d node)

include h

/-- What a trie state is turned into stands at its position. -/
theorem Named.image {n s : ℕ} (hs : Image g haveEnd singleEnd d n s) :
    s < d.fsm.statecount ∧ node s = g.position haveEnd n := by
  unfold Image at hs
  unfold TrieGraph.position
  split at hs
  · rename_i hc
    have htrue : haveEnd = true := by
      simp only [TrieGraph.collapses, Bool.and_eq_true] at hc
      exact hc.1.2
    rw [if_pos hc, hs]
    exact ⟨(h.single htrue).1, (h.single htrue).2.1⟩
  · rename_i hc
    rw [if_neg hc]
    exact ⟨(h.inv.st_lt hs).2, h.node_iff.mpr hs⟩

/-- An edge is a move of the machine. -/
theorem Named.move_of_edge {s : ℕ} (hs : s < d.fsm.statecount) (c : Byte) (t : ℕ)
    (ht : d.fsm.Edge s c t) :
    t < d.fsm.statecount ∧ g.move haveEnd (node s) c = some (node t) := by
  rcases hn : node s with _ | n
  · obtain ⟨htrue, rfl⟩ := h.unnamed s hs hn
    obtain ⟨hlt, hn', -, hedge, -⟩ := h.single htrue
    rw [(hedge c t).mp ht]
    exact ⟨hlt, by rw [TrieGraph.move, hn']⟩
  · obtain ⟨m, hm, htm⟩ := ((h.complete (h.node_iff.mp hn)).edge c t).mp ht
    obtain ⟨hlt, hpos⟩ := h.image htm
    refine ⟨hlt, ?_⟩
    rw [TrieGraph.move, hm, map_some, hpos]

/-- A move of the machine is made by an edge. -/
theorem Named.exists_edge {s : ℕ} (hs : s < d.fsm.statecount) (c : Byte) (b : Option ℕ)
    (hb : g.move haveEnd (node s) c = some b) : ∃ t, d.fsm.Edge s c t := by
  rcases hn : node s with _ | n
  · obtain ⟨htrue, rfl⟩ := h.unnamed s hs hn
    exact ⟨s, ((h.single htrue).2.2.2.1 c s).mpr rfl⟩
  · have hcomplete := h.complete (h.node_iff.mp hn)
    rw [hn, TrieGraph.move] at hb
    obtain ⟨m, hm, -⟩ := Option.map_eq_some_iff.mp hb
    obtain ⟨t, ht⟩ := hcomplete.image c m hm
    exact ⟨t, (hcomplete.edge c t).mpr ⟨m, hm, ht⟩⟩

theorem Named.edge_unique (s : ℕ) (c : Byte) (t t' : ℕ) (ht : d.fsm.Edge s c t)
    (ht' : d.fsm.Edge s c t') : t = t' := by
  rcases hn : node s with _ | n
  · obtain ⟨htrue, rfl⟩ := h.unnamed s ht.source_lt hn
    have hsingle := (h.single htrue).2.2.2.1
    exact ((hsingle c t).mp ht).trans ((hsingle c t').mp ht').symm
  · have hcomplete := h.complete (h.node_iff.mp hn)
    obtain ⟨m, hm, htm⟩ := (hcomplete.edge c t).mp ht
    obtain ⟨m', hm', htm'⟩ := (hcomplete.edge c t').mp ht'
    cases hm.symm.trans hm'
    exact htm.unique htm'

end Named

end TrieFsm

open TrieFsm in
/-- **The conversion builds the machine.** -/
theorem trieToFsm_converted {g : TrieGraph} {haveEnd : Bool} {singleEnd : ℕ} {f : Fsm}
    (hpos : 0 < g.nstates)
    (hclosed : ∀ n < g.nstates, ∀ c m, findNextState g n c = some m → m < g.nstates)
    (hf : EndBase haveEnd singleEnd f) :
    ∃ node, Converted g haveEnd (trieToFsm g haveEnd singleEnd f) node := by
  have hinit : Inv g haveEnd f.statecount { fsm := f } := by
    refine ⟨nofun, nofun, fun hle hlt => ?_, nofun, hf.not_eps, fun s _ => hf.endids s⟩
    exact absurd hlt (Nat.not_lt_of_ge hle)
  -- no trie state has been met yet, so there is fuel for all of them
  have hcard : (unmet g { fsm := f }).card < g.nstates + 1 :=
    Nat.lt_succ_of_le ((Finset.card_filter_le _ _).trans (le_of_eq (Finset.card_range _)))
  have hw : TrieFsm.Walked g haveEnd singleEnd f.statecount { fsm := f } 0
      (trieToFsmState g haveEnd singleEnd (g.nstates + 1) { fsm := f } 0) :=
    trieToFsmState_walked hclosed hinit (le_refl _) hpos hcard
  unfold trieToFsm
  generalize trieToFsmState g haveEnd singleEnd (g.nstates + 1) { fsm := f } 0 = r at *
  obtain ⟨start, d⟩ := r
  obtain ⟨node, h⟩ := hw.exists_named hf
  have hcomplete : ∀ {n s}, node s = some n → Complete g haveEnd singleEnd d n s :=
    fun hn => h.complete (h.node_iff.mp hn)
  refine ⟨node, ?_, ⟨?_, ?_, ⟨start, rfl⟩, ?_, ?_⟩, ?_, ?_, ?_⟩
  · exact Fsm.isDfa_iff.mpr ⟨fun _ => rfl, h.inv.not_eps, h.edge_unique⟩
  · intro s _
    exact Set.eq_empty_iff_forall_notMem.mpr (h.inv.not_eps s)
  · intro s hs
    cases hs
    exact h.image hw.image
  · intro s hs c t ht
    exact h.move_of_edge hs c t ht
  · intro s hs c b hb
    exact h.exists_edge hs c b hb
  · intro s n hn
    exact (h.inv.bounded (h.node_iff.mp hn)).1
  · intro s hs
    show d.fsm.IsEnd s ↔ _
    rcases hn : node s with _ | n
    · obtain ⟨htrue, rfl⟩ := h.unnamed s hs hn
      exact iff_of_true (h.single htrue).2.2.1 fun n h => absurd h.symm (some_ne_none n)
    · rw [(hcomplete hn).isEnd]
      simp
  · intro s hs i
    show i ∈ d.fsm.endidInfo.get s ↔ _
    rcases hn : node s with _ | n
    · obtain ⟨htrue, rfl⟩ := h.unnamed s hs hn
      rw [(h.single htrue).2.2.2.2]
      simp
    · rw [(hcomplete hn).endids]
      simp

end Libfsm
