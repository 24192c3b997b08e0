import Libfsm.Ops.Epsilons

/-!
# Copies

`fsm_clone` of `clone.c` copies an FSM state by state and its tables ID by ID.

- `fsmClone`: the function
- `IsCopy`, `fsmClone_isCopy`: the copy has the same states, edges and IDs, and clear marks

The traversal marks are the one part of a state that is not copied.
-/

namespace Libfsm

open Lib
open List hiding nil cons

/-! ## §1 Copying -/

/-- One state of the loop of `fsm_clone`. -/
def cloneState (f new : Fsm) (i : ℕ) : Fsm :=
  (if fsmIsend f i then fsmSetend new i true else new).modifyState i fun st =>
    { st with
      epsilons := stateSetCopy st.epsilons (f.state i).epsilons
      edges := edgeSetCopy (f.state i).edges }

/-- The copying of end IDs in `clone.c`, ID by ID. -/
def cloneEndids (src dst : IdTable) : IdTable :=
  src.entries.foldl (fun m e => e.2.foldl (fun m id => endidSet m e.1 id) m) dst

/-- The copying of eager outputs in `clone.c`, ID by ID. -/
def cloneEagerOutputs (src : IdTable) (new : Fsm) : Fsm :=
  src.entries.foldl (fun new e => e.2.foldl (fun new id => fsmEagerOutputSet new e.1 id) new) new

/-- The start state of a copy, if there is one. -/
def cloneStart (f new : Fsm) : Fsm :=
  match fsmGetstart f with
  | some start => fsmSetstart new start
  | none => new

/-- The copying of capture actions and end IDs. -/
def cloneTables (f new : Fsm) : Fsm :=
  { new with
    captureInfo := new.captureInfo.copyActions f.captureInfo
    endidInfo := cloneEndids f.endidInfo new.endidInfo }

def fsmClone (f : Fsm) : Fsm :=
  let new := fsmAddstateBulk (fsmNewStatealloc f.statecount) f.statecount
  let new := (range f.statecount).foldl (cloneState f) new
  cloneEagerOutputs f.eagerOutputInfo (cloneTables f (cloneStart f new))

/-! ## §2 The Parts Of A Copy -/

theorem state_cloneState {f new : Fsm} {i : ℕ} (hi : i < new.statecount) (p : ℕ) :
    (cloneState f new i).state p =
      if p = i then { new.state i with
        isEnd := (new.state i).isEnd || (f.state i).isEnd
        epsilons := stateSetCopy (new.state i).epsilons (f.state i).epsilons
        edges := edgeSetCopy (f.state i).edges }
      else new.state p := by
  unfold cloneState
  have hcount : i < (if fsmIsend f i then fsmSetend new i true else new).statecount := by
    split
    · rwa [statecount_fsmSetend]
    · exact hi
  by_cases hp : p = i
  · rw [hp, if_pos rfl, Fsm.state_modifyState_self hcount]
    by_cases hend : fsmIsend f i = true
    · rw [if_pos hend, state_fsmSetend, if_pos ⟨rfl, hi⟩, show (f.state i).isEnd = true from hend,
        Bool.or_true]
    · rw [if_neg hend, show (f.state i).isEnd = false from Bool.eq_false_iff.mpr hend,
        Bool.or_false]
  · rw [Fsm.state_modifyState_ne hp]
    split
    · rw [state_fsmSetend, if_neg fun h => hp h.1]
    · rfl

theorem fields_cloneState (f new : Fsm) (i : ℕ) :
    (cloneState f new i).statecount = new.statecount ∧
      (cloneState f new i).start = new.start ∧
      (cloneState f new i).endidInfo = new.endidInfo ∧
      (cloneState f new i).eagerOutputInfo = new.eagerOutputInfo := by
  unfold cloneState
  split <;> simp

/-- The loop of `fsm_clone` over states that are fresh. -/
theorem foldl_cloneState {f : Fsm} {l : List ℕ} {new : Fsm} (hl : l.Nodup)
    (hlt : ∀ i ∈ l, i < new.statecount) (hfresh : ∀ i ∈ l, new.state i = .fresh) :
    let g := l.foldl (cloneState f) new
    g.statecount = new.statecount ∧ g.start = new.start ∧ g.endidInfo = new.endidInfo ∧
      g.eagerOutputInfo = new.eagerOutputInfo ∧
      ∀ p, g.state p = if p ∈ l then { FsmState.fresh with
        isEnd := (f.state p).isEnd
        epsilons := stateSetCopy .null (f.state p).epsilons
        edges := edgeSetCopy (f.state p).edges } else new.state p := by
  induction l generalizing new with
  | nil => exact ⟨rfl, rfl, rfl, rfl, fun p => by simp⟩
  | cons i l ih =>
    obtain ⟨hi, hl⟩ := nodup_cons.mp hl
    obtain ⟨hcount, hstart, hids, heager⟩ := fields_cloneState f new i
    have hstate := state_cloneState (f := f) (hlt i mem_cons_self)
    have hne : ∀ {p}, p ∈ l → p ≠ i := fun hp heq => hi (heq ▸ hp)
    have hlt' : ∀ p ∈ l, p < (cloneState f new i).statecount :=
      fun p hp => hcount ▸ hlt p (mem_cons_of_mem _ hp)
    have hfresh' : ∀ p ∈ l, (cloneState f new i).state p = .fresh := by
      intro p hp
      rw [hstate, if_neg (hne hp), hfresh p (mem_cons_of_mem _ hp)]
    obtain ⟨h₁, h₂, h₃, h₄, h₅⟩ := ih hl hlt' hfresh'
    refine ⟨h₁.trans hcount, h₂.trans hstart, h₃.trans hids, h₄.trans heager, fun p => ?_⟩
    rw [foldl_cons, h₅, hstate]
    by_cases hp : p ∈ l
    · rw [if_pos hp, if_pos (mem_cons_of_mem _ hp)]
    · rw [if_neg hp]
      by_cases hpi : p = i
      · rw [if_pos hpi, if_pos (hpi ▸ mem_cons_self), hpi, hfresh i mem_cons_self]
        rfl
      · rw [if_neg hpi, if_neg fun h => (mem_cons.mp h).elim hpi hp]

theorem mem_get_cloneEndids (src dst : IdTable) (t i : ℕ) :
    i ∈ (cloneEndids src dst).get t ↔ i ∈ dst.get t ∨ i ∈ src.get t := by
  rw [cloneEndids, foldl_or_iff (i ∈ IdTable.get · t) fun _ _ => by
    rw [mem_get_foldl_endidSet, or_comm, eq_comm], ← IdTable.exists_mem_entries_iff]

/-- The copying of eager outputs touches nothing but the table and the flags for it. -/
theorem cloneEagerOutputs_spec (src : IdTable) (new : Fsm) :
    SameButEager new (cloneEagerOutputs src new) ∧
      ∀ t i, i ∈ (cloneEagerOutputs src new).eagerOutputInfo.get t ↔
        i ∈ new.eagerOutputInfo.get t ∨ i ∈ src.get t := by
  refine ⟨.foldl src.entries (fun f e => (foldl_fsmEagerOutputSet e.1 e.2 f).1) new, fun t i => ?_⟩
  rw [cloneEagerOutputs, foldl_or_iff (fun new : Fsm => i ∈ new.eagerOutputInfo.get t) fun new e =>
    by rw [(foldl_fsmEagerOutputSet e.1 e.2 new).2, eq_comm], ← IdTable.exists_mem_entries_iff]

/-! ## §3 The Copy -/

/-- **A copy is the FSM itself**, with clear marks. -/
structure IsCopy (f g : Fsm) : Prop where
  statecount : g.statecount = f.statecount
  start : g.start = f.start
  edge : ∀ s c t, g.Edge s c t ↔ f.Edge s c t
  eps : ∀ s t, g.Eps s t ↔ f.Eps s t
  isEnd : ∀ s, g.IsEnd s ↔ f.IsEnd s
  endids : ∀ s i, i ∈ g.endidInfo.get s ↔ i ∈ f.endidInfo.get s
  eager : ∀ s i, i ∈ g.eagerOutputInfo.get s ↔ i ∈ f.eagerOutputInfo.get s
  unmarked : g.Unmarked

/-- The states of a copy, before its tables are written. -/
theorem clonedStates_spec (f : Fsm) :
    let g := (range f.statecount).foldl (cloneState f)
      (fsmAddstateBulk (fsmNewStatealloc f.statecount) f.statecount)
    g.statecount = f.statecount ∧ g.start = none ∧ g.endidInfo = ∅ ∧ g.eagerOutputInfo = ∅ ∧
      ∀ p, (g.state p).edges = edgeSetCopy (f.state p).edges ∧
        (g.state p).epsilons = stateSetCopy .null (f.state p).epsilons ∧
        (g.state p).isEnd = (f.state p).isEnd ∧ (g.state p).visited = false := by
  obtain ⟨alloc, hbulk⟩ := fsmAddstateBulk_eq (fsmNewStatealloc f.statecount) f.statecount
  have hcount : (fsmAddstateBulk (fsmNewStatealloc f.statecount) f.statecount).statecount =
      f.statecount := by simp
  have hlt : ∀ i ∈ range f.statecount,
      i < (fsmAddstateBulk (fsmNewStatealloc f.statecount) f.statecount).statecount :=
    fun i hi => (mem_range.mp hi).trans_eq hcount.symm
  have hfresh : ∀ i, (fsmAddstateBulk (fsmNewStatealloc f.statecount) f.statecount).state i =
      .fresh := by
    intro i
    rw [state_fsmAddstateBulk]
    exact Fsm.state_of_le (Nat.zero_le i)
  obtain ⟨h₁, h₂, h₃, h₄, h₅⟩ :=
    foldl_cloneState (f := f) nodup_range hlt fun i _ => hfresh i
  refine ⟨h₁.trans hcount, by rw [h₂, hbulk]; rfl, by rw [h₃, hbulk]; rfl,
    by rw [h₄, hbulk]; rfl, fun p => ?_⟩
  rw [h₅]
  by_cases hp : p ∈ range f.statecount
  · rw [if_pos hp]
    exact ⟨rfl, rfl, rfl, rfl⟩
  · rw [if_neg hp, hfresh, Fsm.state_of_le (not_lt.mp fun h => hp (mem_range.mpr h))]
    exact ⟨rfl, rfl, rfl, rfl⟩

theorem cloneTables_cloneStart {f g : Fsm} (hstart : g.start = none) :
    let k := cloneTables f (cloneStart f g)
    k.states = g.states ∧ k.start = f.start ∧
      k.endidInfo = cloneEndids f.endidInfo g.endidInfo ∧
      k.eagerOutputInfo = g.eagerOutputInfo := by
  unfold cloneStart fsmGetstart
  split
  · rename_i s hs
    exact ⟨rfl, hs.symm, rfl, rfl⟩
  · rename_i hs
    exact ⟨rfl, hstart.trans hs.symm, rfl, rfl⟩

theorem fsmClone_isCopy (f : Fsm) : IsCopy f (fsmClone f) := by
  obtain ⟨hcount, hstart, hids, heager, hstates⟩ := clonedStates_spec f
  unfold fsmClone
  dsimp only at hcount hstart hids heager hstates ⊢
  generalize (range f.statecount).foldl (cloneState f)
    (fsmAddstateBulk (fsmNewStatealloc f.statecount) f.statecount) = g
    at hcount hstart hids heager hstates ⊢
  obtain ⟨hkstates, hkstart, hkids, hkeager⟩ := cloneTables_cloneStart (f := f) hstart
  generalize cloneTables f (cloneStart f g) = k at hkstates hkstart hkids hkeager ⊢
  obtain ⟨⟨e₁, e₄, e₂, e₃⟩, e₅⟩ := cloneEagerOutputs_spec f.eagerOutputInfo k
  generalize cloneEagerOutputs f.eagerOutputInfo k = q at e₁ e₂ e₃ e₄ e₅ ⊢
  -- setting the eager outputs writes a flag in the states and nothing else
  have hstate : ∀ p, (q.state p).edges = edgeSetCopy (f.state p).edges ∧
      (q.state p).epsilons = stateSetCopy .null (f.state p).epsilons ∧
      (q.state p).isEnd = (f.state p).isEnd ∧ (q.state p).visited = false := by
    intro p
    obtain ⟨b, hb⟩ := e₄ p
    rw [hb, Fsm.state, hkstates]
    exact hstates p
  constructor
  case statecount => exact e₁.trans ((congrArg length hkstates).trans hcount)
  case start => exact e₂.trans hkstart
  case edge =>
    intro s c t
    rw [Fsm.Edge, (hstate s).1, hasEdge_edgeSetCopy, Fsm.Edge]
  case eps =>
    intro s t
    rw [Fsm.Eps, (hstate s).2.1, mem_stateSetCopy]
    exact or_iff_left (notMem_null t)
  case isEnd =>
    intro s
    rw [Fsm.IsEnd, (hstate s).2.2.1, Fsm.IsEnd]
  case endids =>
    intro s i
    rw [e₃, hkids, hids, mem_get_cloneEndids]
    exact or_iff_right not_mem_nil
  case eager =>
    intro s i
    rw [e₅, hkeager, heager]
    exact or_iff_right not_mem_nil
  case unmarked => exact fun s _ => (hstate s).2.2.2

namespace IsCopy

variable {f g : Fsm} (h : IsCopy f g)

include h

theorem active_iff {w : List Byte} {s : ℕ} : g.Active w s ↔ f.Active w s :=
  Fsm.active_congr h.start h.edge h.eps

theorem language_eq : g.language = f.language := by
  ext w
  rw [Fsm.mem_language_iff, Fsm.mem_language_iff]
  simp only [h.active_iff, h.isEnd]

theorem lands_iff {w : List Byte} {s : ℕ} : g.Lands w s ↔ f.Lands w s :=
  Fsm.lands_congr h.start h.edge h.eps

theorem wf (hf : f.Wf) : g.Wf := by
  refine ⟨fun hs => ?_, fun he => ?_, fun he => ?_, fun s hs => ?_, fun s hs => ?_⟩
  · rw [h.statecount]
    exact hf.start_lt (h.start.symm.trans hs)
  · rw [h.statecount]
    exact hf.edge_lt ((h.edge _ _ _).mp he)
  · rw [h.statecount]
    exact hf.eps_lt ((h.eps _ _).mp he)
  · apply eq_nil_iff_forall_not_mem.mpr
    intro i hi
    rw [h.endids, hf.endids_below s (h.statecount ▸ hs)] at hi
    cases hi
  · apply eq_nil_iff_forall_not_mem.mpr
    intro i hi
    rw [h.eager, hf.eager_below s (h.statecount ▸ hs)] at hi
    cases hi

end IsCopy

end Libfsm
