import Libfsm.Adt.Queue
import Libfsm.Fsm.Semantics

/-!
# Epsilon Closures

`epsilon_closure` of `closure.c`: the set of states that epsilon edges lead to, for every
state.  A state without epsilon edges is its own closure; the others are walked one after
the other, and a walk that comes to a state whose closure is done takes it over.

- `epsilonClosure`: the closures
- `mem_epsilonClosure`: they are right
-/

namespace Libfsm

open Lib
open List hiding nil cons

variable {f : Fsm} {closures : List StateSet} {s : ℕ}

/-! ## §1 Closures -/

/-- The walk of `epsilon_closure_single` from `s`. -/
def closureWalk (f : Fsm) (closures : List StateSet) (s : ℕ) : Walk ℕ StateSet where
  discipline := .queue
  succ p := (f.state p).epsilons.toList
  visit set p :=
    -- the closure of a state that is done already is taken over as a whole
    let set :=
      if p ≠ s ∧ closures.getD p .null ≠ .null then stateSetCopy set (closures.getD p .null)
      else set
    stateSetAdd set p
  relax set _ _ := set

/-- `epsilon_closure_single`; no state is marked before or after it. -/
def epsilonClosureSingle (f : Fsm) (closures : List StateSet) (s : ℕ) : StateSet :=
  ((closureWalk f closures s).run (f.statecount + 1)
    { marks := Function.update (fun _ => false) s true
      pending := [s]
      acc := closures.getD s .null }).acc

/-- The first loop of `epsilon_closure`: a state without epsilon edges is its own
closure. -/
def initialClosures (f : Fsm) : List StateSet :=
  (range f.statecount).map fun s =>
    if (f.state s).epsilons = .null then stateSetAdd .null s else .null

/-- The body of the second loop of `epsilon_closure`. -/
def closeState (f : Fsm) (closures : List StateSet) (s : ℕ) : List StateSet :=
  if closures.getD s .null ≠ .null then closures
  else closures.set s (epsilonClosureSingle f closures s)

def epsilonClosure (f : Fsm) : List StateSet :=
  (range f.statecount).foldl (closeState f) (initialClosures f)

/-! ## §2 The Closures Are Right -/

/-- `t` can be reached from `s` by epsilon edges. -/
def Fsm.EpsReach (f : Fsm) : ℕ → ℕ → Prop := Relation.ReflTransGen f.Eps

/-- Every closure that is there is right. -/
def ClosuresRight (f : Fsm) (closures : List StateSet) : Prop :=
  ∀ p, closures.getD p .null ≠ .null → ∀ t, t ∈ closures.getD p .null ↔ f.EpsReach p t

/-- Helper: what the walk collects, from the order of its visits. -/
private theorem mem_foldl_visit {t : ℕ} (order : List ℕ) (set : StateSet) :
    t ∈ order.foldl (closureWalk f closures s).visit set ↔
      t ∈ set ∨ ∃ p ∈ order, t = p ∨
        (p ≠ s ∧ closures.getD p .null ≠ .null ∧ t ∈ closures.getD p .null) := by
  apply foldl_or_iff (t ∈ ·)
  intro set p
  unfold closureWalk
  rw [mem_stateSetAdd]
  split
  · rw [mem_stateSetCopy]
    tauto
  · tauto

/-- The queue of a walk has room for every state that is pushed. -/
theorem hasRoom_closureWalk (hf : f.Wf) (hs : s < f.statecount) (set : StateSet) (fuel : ℕ) :
    HasRoom f.statecount ((closureWalk f closures s).run fuel
      ⟨Function.update (fun _ => false) s true, [s], set⟩) := by
  refine (hasRoom_of_marked (nodup_singleton s) ?_).run (fun x y hy => ?_) fuel
  · simpa using hs
  · exact hf.eps_lt hy

/-- **One closure**, on top of closures that are right. -/
theorem mem_epsilonClosureSingle (hf : f.Wf) (hcl : ClosuresRight f closures)
    (hs : s < f.statecount) (hnull : closures.getD s .null = .null) (t : ℕ) :
    t ∈ epsilonClosureSingle f closures s ↔ f.EpsReach s t := by
  set st : SearchState ℕ StateSet :=
    ⟨Function.update (fun _ => false) s true, [s], closures.getD s .null⟩ with hst
  have hfin : (closureWalk f closures s).Finished (f.statecount + 1) st := by
    refine Walk.finished_of_lt (fun x y hy => hf.eps_lt hy) (fun p hp => ?_) (add_comm 1 _).le
    rw [mem_singleton.mp hp]
    exact hs
  have horder : ∀ p, p ∈ (closureWalk f closures s).order (f.statecount + 1) st ↔
      f.EpsReach s p := by
    intro p
    rw [Walk.mem_order hfin, Walk.reach_iff_of_marks]
    · simp [hst]
      rfl
    · intro z hz
      by_contra hne
      have hzs : z ≠ s := fun h => hne (mem_singleton.mpr h)
      rw [hst] at hz
      simp [hzs] at hz
  have hacc : epsilonClosureSingle f closures s =
      ((closureWalk f closures s).order (f.statecount + 1) st).foldl
        (closureWalk f closures s).visit .null := by
    rw [← hnull]
    exact Walk.acc_run_of_relax (fun _ _ _ => rfl) _ st
  -- closures found earlier may be taken over whole
  rw [hacc, mem_foldl_visit]
  constructor
  · intro h
    rcases h with h | ⟨p, hp, rfl | ⟨-, hp', ht⟩⟩
    · exact absurd h (notMem_null t)
    · exact (horder t).mp hp
    · exact ((horder p).mp hp).trans ((hcl p hp' t).mp ht)
  · intro h
    exact .inr ⟨t, (horder t).mpr h, .inl rfl⟩

/-- Helper: right closures stay right, and one more is there. -/
private theorem closeState_spec (hf : f.Wf) (hlen : closures.length = f.statecount)
    (hcl : ClosuresRight f closures) (hs : s < f.statecount) :
    (closeState f closures s).length = f.statecount ∧ ClosuresRight f (closeState f closures s) ∧
      (closeState f closures s).getD s .null ≠ .null ∧
      ∀ p, closures.getD p .null ≠ .null → (closeState f closures s).getD p .null ≠ .null := by
  unfold closeState
  split
  · rename_i h
    exact ⟨hlen, hcl, h, fun p hp => hp⟩
  · rename_i h
    have hnull : closures.getD s .null = .null := not_not.mp h
    have hset : ∀ p, (closures.set s (epsilonClosureSingle f closures s)).getD p .null =
        if p = s then epsilonClosureSingle f closures s else closures.getD p .null := by
      intro p
      rw [getD_eq_getElem?_getD, getD_eq_getElem?_getD]
      by_cases hp : p = s
      · rw [hp, if_pos rfl, getElem?_set_self (hlen ▸ hs), Option.getD_some]
      · rw [if_neg hp, getElem?_set_ne (Ne.symm hp)]
    have hmem := mem_epsilonClosureSingle hf hcl hs hnull
    -- a closure has its own state, so it is not NULL
    have hne : epsilonClosureSingle f closures s ≠ .null := by
      intro hcontra
      have hself := (hmem s).mpr .refl
      rw [hcontra] at hself
      exact notMem_null s hself
    refine ⟨by rw [length_set, hlen], ?_, ?_, ?_⟩
    · intro p hp t
      rw [hset] at hp ⊢
      by_cases hps : p = s
      · rw [if_pos hps, hps]
        exact hmem t
      · rw [if_neg hps] at hp ⊢
        exact hcl p hp t
    · rw [hset, if_pos rfl]
      exact hne
    · intro p hp
      rw [hset]
      split
      · exact hne
      · exact hp

/-- Helper: the second loop, over some of the states. -/
private theorem foldl_closeState_spec (hf : f.Wf) (l : List ℕ) (hl : ∀ s ∈ l, s < f.statecount)
    (hlen : closures.length = f.statecount) (hcl : ClosuresRight f closures) :
    ClosuresRight f (l.foldl (closeState f) closures) ∧
      ∀ s, s ∈ l ∨ closures.getD s .null ≠ .null →
        (l.foldl (closeState f) closures).getD s .null ≠ .null := by
  induction l generalizing closures with
  | nil => exact ⟨hcl, fun s hs => hs.resolve_left not_mem_nil⟩
  | cons p l ih =>
    obtain ⟨hlen', hcl', hp, hkeep⟩ := closeState_spec hf hlen hcl (hl p mem_cons_self)
    obtain ⟨h₁, h₂⟩ := ih (fun s hs => hl s (mem_cons_of_mem p hs)) hlen' hcl'
    refine ⟨h₁, fun s hs => h₂ s ?_⟩
    rcases hs with hs | hs
    · rcases mem_cons.mp hs with rfl | hs
      · exact .inr hp
      · exact .inl hs
    · exact .inr (hkeep s hs)

/-- **The closures**: what epsilon edges lead to. -/
theorem mem_epsilonClosure (hf : f.Wf) (hs : s < f.statecount) (t : ℕ) :
    t ∈ (epsilonClosure f).getD s .null ↔ f.EpsReach s t := by
  have hinit : ClosuresRight f (initialClosures f) := by
    intro p hp t
    have hget : (initialClosures f).getD p .null =
        if p < f.statecount ∧ (f.state p).epsilons = .null then .singleton p else .null := by
      rw [initialClosures]
      rcases lt_or_ge p f.statecount with h | h
      · simp [h, stateSetAdd]
      · simp [not_lt.mpr h]
    rw [hget] at hp ⊢
    split at hp
    · rename_i h
      rw [if_pos h, mem_singleton]
      constructor
      · rintro rfl
        exact .refl
      · intro hreach
        rcases hreach.cases_head with h' | ⟨q, hq, -⟩
        · exact h'.symm
        · rw [Fsm.Eps, h.2] at hq
          exact absurd hq (notMem_null q)
    · exact absurd rfl hp
  have hlen : (initialClosures f).length = f.statecount := by simp [initialClosures]
  obtain ⟨hright, hdone⟩ := foldl_closeState_spec hf (range f.statecount)
    (fun s hs => mem_range.mp hs) hlen hinit
  exact hright s (hdone s (.inl (mem_range.mpr hs))) t

end Libfsm
