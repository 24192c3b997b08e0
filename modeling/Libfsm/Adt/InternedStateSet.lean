import Libfsm.Adt.StateSet
import Libfsm.Lib.ProbeTable
import Mathlib.Data.List.GetD

/-!
# Interned State Sets

The pool of `adt/internedstateset.c`: ascending lists of states, each stored once, with a
number for each.  A set of one state is not stored; its number is the state itself with
the top bit set.

- `hashId`, `hashIds`: the hash functions of `adt/hash.h`
- `internedStateSetInternSet`: the number of a list, adding it if it is new
- `internedStateSetGetStateSet`: the set behind a number
- `internedStateSetInternSet_spec`, `resolve_injOn`: numbers and lists are in bijection

The pool keeps the lists one after the other in a buffer; here each list is an item of its
own.
-/

namespace Libfsm

open Lib
open List hiding nil cons

/-! ## §1 Hashes -/

/-- `hash_id`: xorshift*. -/
def hashId (id : UInt64) : UInt64 :=
  let x := id + 1
  let x := x ^^^ (x >>> 12)
  let x := x ^^^ (x <<< 25)
  let x := x ^^^ (x >>> 27)
  x * 2685821657736338717

def hashIds (ids : List ℕ) : UInt64 :=
  ids.foldl (fun h id => hashId (h ^^^ UInt64.ofNat id)) 0

/-- `hash_state_ids`, `to_set_hash` -/
def hashStateIds (ids : List ℕ) : ℕ := (hashIds ids).toNat

/-! ## §2 The Pool -/

/-- `interned_state_set_id` -/
inductive InternedStateSetId where
  /-- A boxed state -/
  | singleton (s : ℕ)
  /-- An index into the stored sets -/
  | set (id : ℕ)
  deriving DecidableEq, Repr

/-- The number as the integer that is hashed: `SINGLETON_BIT` marks a boxed state. -/
def InternedStateSetId.toUInt64 : InternedStateSetId → UInt64
  | .singleton s => UInt64.ofNat s ||| 0x8000000000000000
  | .set id => UInt64.ofNat id

/-- `struct interned_state_set_pool` -/
abbrev InternedStateSetPool := Interner (List ℕ)

/-- `interned_state_set_pool_alloc`, with `DEF_BUCKETS` buckets. -/
def internedStateSetPoolAlloc : InternedStateSetPool :=
  { buckets := replicate 256 none }

def internedStateSetInternSet (pool : InternedStateSetPool) (states : List ℕ) :
    InternedStateSetId × InternedStateSetPool :=
  match states with
  | [s] => (.singleton s, pool)
  | _ =>
    -- `grow_htab`
    let pool := pool.reserve hashStateIds (pool.buckets.length / 2 < pool.items.length)
      (2 * pool.buckets.length)
    match pool.find hashStateIds states with
    | some id => (.set id, pool)
    | none => (.set pool.items.length, pool.add hashStateIds states)

/-- The states behind a number, `iter_interned_state_set`. -/
def InternedStateSetPool.resolve (pool : InternedStateSetPool) : InternedStateSetId → List ℕ
  | .singleton s => [s]
  | .set id => pool.items.getD id []

def internedStateSetGetStateSet (pool : InternedStateSetPool) (iss : InternedStateSetId) :
    StateSet :=
  (pool.resolve iss).foldl stateSetAdd .null

/-! ## §3 Numbers and Sets -/

@[simp] theorem mem_internedStateSetGetStateSet {pool : InternedStateSetPool}
    {iss : InternedStateSetId} {s : ℕ} :
    s ∈ internedStateSetGetStateSet pool iss ↔ s ∈ pool.resolve iss := by
  unfold internedStateSetGetStateSet
  simp [mem_foldl_stateSetAdd]

namespace InternedStateSetPool

/-- The hash table stands for the stored sets, has room, and no set of one state is
stored. -/
structure Valid (pool : InternedStateSetPool) : Prop where
  interner : Interner.Valid hashStateIds pool
  pos : 0 < pool.buckets.length
  room : pool.items.length ≤ pool.buckets.length
  not_single : ∀ l ∈ pool.items, l.length ≠ 1

/-- The number is that of a boxed state or of a stored set. -/
def Has (pool : InternedStateSetPool) : InternedStateSetId → Prop
  | .singleton _ => True
  | .set id => id < pool.items.length

theorem valid_alloc : Valid internedStateSetPoolAlloc where
  interner := Interner.valid_empty 256
  pos := by
    rw [internedStateSetPoolAlloc, length_replicate]
    decide
  room := Nat.zero_le _
  not_single l hl := absurd hl not_mem_nil

variable {pool pool' : InternedStateSetPool} {iss iss' : InternedStateSetId}

/-- Numbers keep their meaning while sets are added. -/
theorem Has.mono (h : pool.Has iss) (hext : pool.items <+: pool'.items) : pool'.Has iss := by
  cases iss with
  | singleton s => exact trivial
  | set id => exact lt_of_lt_of_le h hext.length_le

theorem Has.resolve_eq (h : pool.Has iss) (hext : pool.items <+: pool'.items) :
    pool'.resolve iss = pool.resolve iss := by
  cases iss with
  | singleton s => rfl
  | set id =>
    obtain ⟨more, hmore⟩ := hext
    show pool'.items.getD id [] = pool.items.getD id []
    rw [← hmore, getD_append _ _ _ _ h]

/-- Different numbers stand for different lists. -/
theorem Valid.resolve_injOn (hpool : pool.Valid) (h : pool.Has iss) (h' : pool.Has iss')
    (heq : pool.resolve iss = pool.resolve iss') : iss = iss' := by
  have hlen : ∀ {id}, id < pool.items.length → (pool.items.getD id []).length ≠ 1 := by
    intro id hid
    rw [getD_eq_getElem _ _ hid]
    exact hpool.not_single _ (getElem_mem hid)
  cases iss with
  | singleton s =>
    cases iss' with
    | singleton t => simpa [resolve] using heq
    | set id => exact absurd (congrArg List.length heq).symm (hlen h')
  | set id =>
    cases iss' with
    | singleton t => exact absurd (congrArg List.length heq) (hlen h)
    | set id' =>
      have heq : pool.items.getD id [] = pool.items.getD id' [] := heq
      rw [getD_eq_getElem _ _ h, getD_eq_getElem _ _ h'] at heq
      exact congrArg _ (hpool.interner.nodup.getElem_inj_iff.mp heq)

end InternedStateSetPool

open InternedStateSetPool

/-- Interning gives a number for the list, and keeps all numbers given before. -/
theorem internedStateSetInternSet_spec {pool : InternedStateSetPool} (hpool : pool.Valid)
    (states : List ℕ) :
    (internedStateSetInternSet pool states).2.Valid ∧
      pool.items <+: (internedStateSetInternSet pool states).2.items ∧
      (internedStateSetInternSet pool states).2.Has (internedStateSetInternSet pool states).1 ∧
      (internedStateSetInternSet pool states).2.resolve
        (internedStateSetInternSet pool states).1 = states := by
  unfold internedStateSetInternSet
  split
  · exact ⟨hpool, prefix_rfl, trivial, rfl⟩
  · rename_i hsingle
    have hlen : states.length ≠ 1 := by
      intro h
      obtain ⟨s, hs⟩ := length_eq_one_iff.mp h
      exact hsingle s hs
    have hpos := hpool.pos
    have hroom := hpool.room
    obtain ⟨hvalid, hlt⟩ := hpool.interner.reserve (n := 2 * pool.buckets.length)
      (p := pool.buckets.length / 2 < pool.items.length) (by omega) (by omega)
    dsimp only
    split
    · rename_i id hfind
      have hget : pool.items[id]? = some states := by
        simpa using hvalid.find_eq_some_iff.mp hfind
      have hid := (List.getElem?_eq_some_iff.mp hget).1
      refine ⟨⟨hvalid, Nat.zero_lt_of_lt hlt, by simpa using hlt.le, ?_⟩, by simp,
        by simpa [Has] using hid, ?_⟩
      · simpa using hpool.not_single
      · simp [resolve, hget]
    · rename_i hfind
      -- a new list goes to the end, so older numbers stay right
      have hnew : states ∉ pool.items := by
        simpa using hvalid.find_eq_none_iff.mp hfind
      obtain ⟨hvalid', hlen'⟩ := hvalid.add (by simpa using hnew) (by simpa using hlt)
      have hitems : ((pool.reserve hashStateIds (pool.buckets.length / 2 < pool.items.length)
          (2 * pool.buckets.length)).add hashStateIds states).items = pool.items ++ [states] := by
        simp [Interner.add]
      refine ⟨⟨hvalid', hlen'.symm ▸ Nat.zero_lt_of_lt hlt, ?_, ?_⟩, ?_, ?_, ?_⟩
      · rw [hitems, hlen', length_append, length_singleton]
        omega
      · intro l hl
        rw [hitems, List.mem_append, List.mem_singleton] at hl
        rcases hl with hl | rfl
        · exact hpool.not_single l hl
        · exact hlen
      · exact prefix_append _ _
      · simp [Has, hitems]
      · simp [resolve, hitems]

end Libfsm
