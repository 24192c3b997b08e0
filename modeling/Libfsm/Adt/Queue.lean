import Libfsm.Lib.GraphSearch

/-!
# Queues Of States

`adt/queue.c`: an array of fixed capacity with offsets for the next read and the next write.

- `queuePush`, `queuePop`: the operations; a push into a full array fails
- `HasRoom.push`: a search that keeps its pending states in such a queue, and marks what it pushes,
  always has room
-/

namespace Libfsm

open Lib
open List hiding nil cons

variable {n x y : ℕ} {rest : List ℕ} {β : Type*}

/-! ## §1 The Array -/

/-- `struct queue`: the entries up to the write offset.  The offsets start over when all entries
have been read. -/
structure Queue (capacity : ℕ) where
  q : List ℕ
  rd : ℕ
  rd_lt : rd = 0 ∨ rd < q.length
  wr_le : q.length ≤ capacity

/-- The states in the queue, the next one to read first. -/
def Queue.states (q : Queue n) : List ℕ := q.q.drop q.rd

def queuePush (q : Queue n) (state : ℕ) : Option (Queue n) :=
  if hfull : q.q.length = n then
    -- the entries that have been read make room for the others
    if hread : 0 < q.rd ∧ q.rd < q.q.length then
      some ⟨q.states ++ [state], 0, .inl rfl, by simp [Queue.states]; omega⟩
    else none
  else
    some ⟨q.q ++ [state], q.rd, q.rd_lt.imp_right fun h => by simp; omega,
      by simp; exact lt_of_le_of_ne q.wr_le hfull⟩

def queuePop (q : Queue n) : Option (ℕ × Queue n) :=
  if h : q.rd < q.q.length then
    some (q.q[q.rd], if hlast : q.rd + 1 < q.q.length then ⟨q.q, q.rd + 1, .inr hlast, q.wr_le⟩
      else ⟨[], 0, .inl rfl, Nat.zero_le n⟩)
  else none

/-- A push fails only where `n` states wait to be read. -/
theorem queuePush_spec (q : Queue n) (h : q.states.length < n) (x : ℕ) :
    ∃ q', queuePush q x = some q' ∧ q'.states = q.states ++ [x] := by
  have hlt := q.rd_lt
  rw [Queue.states, length_drop] at h
  unfold queuePush
  split
  · rw [dif_pos (by omega)]
    exact ⟨_, rfl, rfl⟩
  · have hle : q.rd ≤ q.q.length := by omega
    exact ⟨_, rfl, drop_append_of_le_length hle⟩

theorem queuePop_nil {q : Queue n} (h : q.states = []) : queuePop q = none :=
  dif_neg (not_lt.mpr (drop_eq_nil_iff.mp h))

theorem queuePop_cons {q : Queue n} (h : q.states = x :: rest) :
    ∃ q', queuePop q = some (x, q') ∧ q'.states = rest := by
  have hlt : q.rd < q.q.length := by
    by_contra hge
    rw [Queue.states, drop_eq_nil_iff.mpr (not_lt.mp hge)] at h
    cases h
  rw [Queue.states, drop_eq_getElem_cons hlt, cons.injEq] at h
  rw [queuePop, dif_pos hlt, h.1]
  refine ⟨_, rfl, ?_⟩
  split
  · exact h.2
  · rw [← h.2, drop_eq_nil_iff.mpr (by omega)]
    rfl

/-! ## §2 Searches -/

/-- The pending states of a search and those that may become so fit into the array. -/
def HasRoom (n : ℕ) (st : SearchState ℕ β) : Prop := Walk.potential (Finset.range n) st ≤ n

variable {W : Walk ℕ β} {st : SearchState ℕ β}

/-- A search from states that are marked has room. -/
theorem hasRoom_of_marked (hnodup : st.pending.Nodup)
    (hmarked : ∀ p ∈ st.pending, p < n ∧ st.marks p = true) : HasRoom n st := by
  have hle : st.pending.length ≤ ((Finset.range n).filter fun z => ¬ st.marks z = false).card := by
    rw [← toFinset_card_of_nodup hnodup]
    refine Finset.card_le_card fun p hp => ?_
    have hp := hmarked p (mem_toFinset.mp hp)
    simp [hp.1, hp.2]
  have hsplit := Finset.card_filter_add_card_filter_not (s := Finset.range n)
    fun z => st.marks z = false
  rw [Finset.card_range] at hsplit
  unfold HasRoom Walk.potential
  omega

theorem HasRoom.run (h : HasRoom n st) (hsucc : ∀ x, ∀ y ∈ W.succ x, y < n) (fuel : ℕ) :
    HasRoom n (W.run fuel st) :=
  Walk.run_invariant (fun _ x _ hp h => (Nat.le_of_succ_le (Walk.potential_expand hp
    fun y hy => Finset.mem_range.mpr (hsucc x y hy))).trans h) fuel st h

/-- **A search has room**: the state that it adds can be pushed, and the queue has its pending
states after the step if it had them before. -/
theorem HasRoom.push (h : HasRoom n st) (hW : W.discipline = .queue) (hy : y < n)
    (hm : st.marks y = false) {q : Queue n} (hq : q.states = st.pending) (x : ℕ) :
    ∃ q', queuePush q y = some q' ∧ q'.states = (W.touch x st y).pending ∧
      HasRoom n (W.touch x st y) := by
  -- `y` itself is one of those that may become pending
  have hpos : 0 < ((Finset.range n).filter fun z => st.marks z = false).card :=
    Finset.card_pos.mpr ⟨y, Finset.mem_filter.mpr ⟨Finset.mem_range.mpr hy, hm⟩⟩
  have hlen : st.pending.length < n := by
    unfold HasRoom Walk.potential at h
    omega
  obtain ⟨q', hpush, hstates⟩ := queuePush_spec q (hq ▸ hlen) y
  refine ⟨q', hpush, ?_, (Walk.potential_touch (Finset.mem_range.mpr hy)).trans h⟩
  rw [hstates, hq, Walk.touch, if_neg (by simp [hm]), hW]
  rfl

end Libfsm
