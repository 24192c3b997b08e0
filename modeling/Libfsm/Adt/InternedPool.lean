import Libfsm.Adt.InternedStateSet
import Mathlib.Data.Set.Card

/-!
# The Pool Of Interned State Sets In Memory

`struct interned_state_set_pool` as `adt/internedstateset.c` lays it out: the lists one after the
other in a buffer, descriptors with an offset, a length and the set once it was asked for, and a
hash table of 32-bit numbers in which `NO_ID` stands for an empty bucket.  A number handed out has
64 bits; the top bit marks a boxed state.

- `IssPool.internSet`, `IssPool.getStateSet`: the operations
- `IssPool.toPool`: the pool of `Adt/InternedStateSet` it stands for
- `IssPool.Wf.internSet`: one call refines a call there, as long as the new number is not `NO_ID`
- `Canonical`, `canonical_iff`: what holds of whole sequences of calls
-/

namespace Libfsm

open Lib
open List hiding length nil cons set get
open BitVec hiding nil cons or_self

/-! ## §1 The Pool -/

def noId : BitVec 32 := BitVec.allOnes 32

/-- `struct issp_set` -/
structure IsspSet where
  bufOffset : ℕ
  length : ℕ
  /-- The set, once it was asked for -/
  ss : Option StateSet := none

/-- `struct interned_state_set_pool`: the used parts of the arrays and the sizes allocated, as
`interned_state_set_pool_alloc` sets them up. -/
structure IssPool where
  buf : List ℕ := []
  bufCeil : ℕ := 64
  sets : List IsspSet := []
  setsCeil : ℕ := 8
  buckets : List (BitVec 32) := replicate 256 noId
  htabUsed : ℕ := 0

/-- The part of the buffer a descriptor is about. -/
def IsspSet.states (s : IsspSet) (buf : List ℕ) : List ℕ := (buf.drop s.bufOffset).take s.length

/-- What a bucket holds. -/
def bucketId (b : BitVec 32) : Option ℕ := if b = noId then none else some b.toNat

def singletonBit : BitVec 64 := BitVec.twoPow 64 63

namespace IssPool

def table (pool : IssPool) : List (Option ℕ) := pool.buckets.map bucketId

def statesOf (pool : IssPool) (id : ℕ) : Option (List ℕ) :=
  pool.sets[id]?.map fun s => s.states pool.buf

def growHtab (pool : IssPool) : IssPool :=
  { pool with
    buckets := pool.buckets.foldl
      (fun new b =>
        match bucketId b with
        | none => new
        | some id =>
          match probe (new.map bucketId) ((pool.statesOf id).elim 0 hashStateIds)
              (fun _ => false) with
          | none => new
          | some j => new.set j b)
      (replicate (2 * pool.buckets.length) noId) }

/-- The part of `interned_state_set_intern_set` that adds a list, in the bucket `j`. -/
def store (pool : IssPool) (states : List ℕ) (j : ℕ) : IssPool where
  buf := pool.buf ++ states
  bufCeil :=
    if pool.bufCeil < pool.buf.length + states.length then
      doubleUntil (pool.buf.length + states.length) (pool.buf.length + states.length)
        (2 * pool.bufCeil)
    else pool.bufCeil
  sets := pool.sets ++ [{ bufOffset := pool.buf.length, length := states.length }]
  setsCeil := if pool.sets.length = pool.setsCeil then 2 * pool.setsCeil else pool.setsCeil
  -- the number is a `size_t`, the bucket a `uint32_t`
  buckets := pool.buckets.set j (BitVec.ofNat 32 pool.sets.length)
  htabUsed := pool.htabUsed + 1

/-- The table is grown when more than half of it is used. -/
def reserve (pool : IssPool) : IssPool :=
  if pool.buckets.length / 2 < pool.htabUsed then pool.growHtab else pool

/-- The probe loop of `interned_state_set_intern_set` and what follows it. -/
def findOrStore (pool : IssPool) (states : List ℕ) : Option (BitVec 64 × IssPool) :=
  match probe pool.table (hashStateIds states)
      fun id => decide (pool.statesOf id = some states) with
  | none => none
  | some j =>
    match bucketAt pool.table j with
    | some id => some (BitVec.ofNat 64 id, pool)
    | none => some (BitVec.ofNat 64 pool.sets.length, pool.store states j)

/-- `interned_state_set_intern_set`; none if an assertion fails. -/
def internSet (pool : IssPool) (states : List ℕ) : Option (BitVec 64 × IssPool) :=
  match states with
  | [] => none
  | [s] => some (BitVec.ofNat 64 s ||| singletonBit, pool)
  | s :: s' :: more => pool.reserve.findOrStore (s :: s' :: more)

/-- `interned_state_set_get_state_set`; none if an assertion fails. -/
def getStateSet (pool : IssPool) (issId : BitVec 64) : Option (StateSet × IssPool) :=
  if issId &&& singletonBit ≠ 0 then
    some (stateSetAdd .null ((issId &&& ~~~singletonBit).toNat % 2 ^ 32), pool)
  else
    match pool.sets[issId.toNat]? with
    | none => none
    | some s =>
      match s.ss with
      | some ss => some (ss, pool)
      | none =>
        let ss := (s.states pool.buf).foldl stateSetAdd .null
        some (ss, { pool with sets := pool.sets.set issId.toNat { s with ss := some ss } })

/-! ## §2 The Pool It Stands For -/

/-- The pool with each list as an item of its own. -/
def toPool (pool : IssPool) : InternedStateSetPool where
  items := pool.sets.map fun s => s.states pool.buf
  buckets := pool.table

theorem getElem?_items (pool : IssPool) (id : ℕ) : pool.toPool.items[id]? = pool.statesOf id :=
  getElem?_map

@[simp] theorem length_items (pool : IssPool) : pool.toPool.items.length = pool.sets.length :=
  length_map _

@[simp] theorem length_table (pool : IssPool) : pool.table.length = pool.buckets.length :=
  length_map _

theorem table_growHtab (pool : IssPool) : pool.growHtab.table =
    rehash (fun id => (pool.toPool.items[id]?).elim 0 hashStateIds) pool.table
      (2 * pool.buckets.length) := by
  simp only [getElem?_items]
  rw [rehash, table, growHtab, table, foldl_map]
  have hempty : (List.replicate (2 * pool.buckets.length) noId).map bucketId =
      List.replicate (2 * pool.buckets.length) none := by
    rw [map_replicate]
    rfl
  rw [← hempty]
  -- the buckets of the new tables are the same after every bucket of the old one
  generalize List.replicate (2 * pool.buckets.length) noId = new
  induction pool.buckets generalizing new with
  | nil => rfl
  | cons b bs ih =>
    rw [foldl_cons, foldl_cons, ih]
    cases hb : bucketId b with
    | none => rfl
    | some id =>
      dsimp only
      rw [place]
      cases probe (new.map bucketId) ((pool.statesOf id).elim 0 hashStateIds) (fun _ => false) with
      | none => rfl
      | some j =>
        rw [map_set, hb]

theorem toPool_reserve (pool : IssPool) : pool.reserve.toPool =
    Interner.reserve hashStateIds pool.toPool (pool.buckets.length / 2 < pool.htabUsed)
      (2 * pool.buckets.length) := by
  rw [reserve, Interner.reserve, Lib.reserve]
  split
  · rw [toPool, table_growHtab]
    rfl
  · rfl

@[simp] theorem sets_reserve (pool : IssPool) : pool.reserve.sets = pool.sets := by
  rw [reserve]
  split <;> rfl

/-- The pool is laid out right, and the pool it stands for is valid. -/
structure Wf (pool : IssPool) : Prop where
  inBuf : ∀ s ∈ pool.sets, s.bufOffset + s.length ≤ pool.buf.length
  cached : ∀ s ∈ pool.sets, ∀ ss, s.ss = some ss →
    ss = (s.states pool.buf).foldl stateSetAdd .null
  used : pool.htabUsed = pool.sets.length
  bufCeil : pool.buf.length ≤ pool.bufCeil ∧ 0 < pool.bufCeil
  setsCeil : pool.sets.length ≤ pool.setsCeil ∧ 0 < pool.setsCeil
  valid : pool.toPool.Valid

end IssPool

theorem bucketId_lt {b : BitVec 32} {id : ℕ} (h : bucketId b = some id) : id < 2 ^ 32 - 1 := by
  unfold bucketId at h
  split at h
  · cases h
  · rename_i hne
    have hid : b.toNat = id := Option.some.inj h
    have hnot : b.toNat ≠ 2 ^ 32 - 1 := by
      intro heq
      exact hne (eq_of_toNat_eq (heq.trans (by decide)))
    omega

/-- Numbers below `NO_ID` are read back from a bucket. -/
theorem bucketId_ofNat {id : ℕ} (h : id < 2 ^ 32 - 1) :
    bucketId (BitVec.ofNat 32 id) = some id := by
  have hnat : (BitVec.ofNat 32 id).toNat = id := by
    exact Nat.mod_eq_of_lt (by omega)
  have hne : BitVec.ofNat 32 id ≠ noId := by
    intro heq
    have hall : noId.toNat = 2 ^ 32 - 1 := by decide
    rw [heq] at hnat
    omega
  rw [bucketId, if_neg hne, hnat]

namespace IssPool

theorem wf_alloc : Wf {} where
  inBuf s hs := absurd hs not_mem_nil
  cached s hs := absurd hs not_mem_nil
  used := rfl
  bufCeil := ⟨Nat.zero_le _, by decide⟩
  setsCeil := ⟨Nat.zero_le _, by decide⟩
  valid := by
    have htable : (List.replicate 256 noId).map bucketId = List.replicate 256 none := by
      rw [map_replicate]
      rfl
    have halloc : toPool {} = internedStateSetPoolAlloc := by
      rw [toPool, table, htable]
      rfl
    rw [halloc]
    exact InternedStateSetPool.valid_alloc

variable {pool : IssPool}

/-- Lists in the buffer stay as they are when others are put after them. -/
theorem states_append {s : IsspSet} {buf : List ℕ} (h : s.bufOffset + s.length ≤ buf.length)
    (more : List ℕ) : s.states (buf ++ more) = s.states buf := by
  rw [IsspSet.states, IsspSet.states, drop_append_of_le_length (by omega),
    take_append_of_le_length (by rw [length_drop]; omega)]

theorem items_store (hpool : pool.Wf) (states : List ℕ) (j : ℕ) :
    (pool.store states j).toPool.items = pool.toPool.items ++ [states] := by
  have hold : pool.sets.map (fun s => s.states (pool.buf ++ states)) = pool.toPool.items := by
    apply map_congr_left
    intro s hs
    exact states_append (hpool.inBuf s hs) states
  have hnew : (⟨pool.buf.length, states.length, none⟩ : IsspSet).states (pool.buf ++ states) =
      states := by
    rw [IsspSet.states, drop_left, take_length]
  show (pool.sets ++ [_]).map _ = _
  rw [map_append]
  exact congrArg₂ _ hold (congrArg (fun l => [l]) hnew)

theorem table_store (states : List ℕ) (j : ℕ) (h : pool.sets.length < 2 ^ 32 - 1) :
    (pool.store states j).table = pool.table.set j (some pool.sets.length) := by
  rw [table, store, map_set, bucketId_ofNat h]
  rfl

/-- The rest of the invariant after a list was added. -/
theorem Wf.store (hpool : pool.Wf) (states : List ℕ) (j : ℕ)
    (hvalid : (pool.store states j).toPool.Valid) : (pool.store states j).Wf where
  inBuf s hs := by
    have hlen : (pool.store states j).buf.length = pool.buf.length + states.length :=
      length_append
    rcases mem_append.mp hs with hs | hs
    · have := hpool.inBuf s hs
      omega
    · rw [List.mem_singleton.mp hs, hlen]
  cached s hs ss hss := by
    rcases mem_append.mp hs with hs | hs
    -- older sets stay where they are in the buffer
    · have hstates : s.states (pool.store states j).buf = s.states pool.buf :=
        states_append (hpool.inBuf s hs) states
      rw [hstates]
      exact hpool.cached s hs ss hss
    · rw [List.mem_singleton.mp hs] at hss
      cases hss
  used := by
    show pool.htabUsed + 1 = (pool.sets ++ [_]).length
    rw [length_append, hpool.used]
    rfl
  bufCeil := by
    have hceil := hpool.bufCeil
    have hlen : (pool.store states j).buf.length = pool.buf.length + states.length :=
      length_append
    rw [hlen]
    unfold IssPool.store
    dsimp only
    split
    · have hle : pool.buf.length + states.length ≤ doubleUntil (pool.buf.length + states.length)
          (pool.buf.length + states.length) (2 * pool.bufCeil) :=
        le_doubleUntil (by omega) (Nat.le_add_left _ _)
      omega
    · omega
  setsCeil := by
    have hceil := hpool.setsCeil
    have hlen : (pool.store states j).sets.length = pool.sets.length + 1 := length_append
    rw [hlen]
    unfold IssPool.store
    dsimp only
    split <;> omega
  valid := hvalid

/-- Growing the table changes nothing else. -/
theorem Wf.reserve (hpool : pool.Wf) :
    pool.reserve.Wf ∧ usedBuckets pool.reserve.table < pool.reserve.table.length := by
  have hvalid := hpool.valid
  have hroom : pool.sets.length ≤ pool.buckets.length := by
    simpa using hvalid.room.trans_eq pool.length_table
  have hpos : 0 < pool.buckets.length := hvalid.pos.trans_eq pool.length_table
  have hused := hpool.used
  -- the growth is that of the interner behind the pool
  obtain ⟨hinterner, hlt⟩ := hvalid.interner.reserve
    (p := pool.buckets.length / 2 < pool.htabUsed) (n := 2 * pool.buckets.length)
    (by rw [length_items]; omega)
    (by
      have hlen : pool.toPool.buckets.length = pool.buckets.length := pool.length_table
      rw [length_items]
      omega)
  rw [← toPool_reserve] at hinterner hlt
  have hfree : usedBuckets pool.reserve.table < pool.reserve.table.length := by
    have hcount : usedBuckets pool.reserve.table = pool.reserve.toPool.items.length :=
      hinterner.used
    rw [hcount, length_items, sets_reserve, ← pool.length_items]
    exact hlt
  have hitems : pool.reserve.toPool.items = pool.toPool.items := by rw [toPool_reserve]; rfl
  have hwf : pool.reserve.toPool.Valid := by
    refine ⟨hinterner, Nat.zero_lt_of_lt hlt, ?_, ?_⟩
    · rw [hitems]
      exact hlt.le
    · rw [hitems]
      exact hvalid.not_single
  refine ⟨?_, hfree⟩
  unfold IssPool.reserve at hwf ⊢
  split
  · rename_i hfull
    rw [if_pos hfull] at hwf
    exact ⟨hpool.inBuf, hpool.cached, hpool.used, hpool.bufCeil, hpool.setsCeil, hwf⟩
  · exact hpool

/-- The loop finds the list or adds it, as the table of the pool it stands for does. -/
theorem findOrStore_spec (hpool : pool.Wf) (hfree : usedBuckets pool.table < pool.table.length)
    (states : List ℕ) :
    (∃ id, pool.toPool.find hashStateIds states = some id ∧
      pool.findOrStore states = some (BitVec.ofNat 64 id, pool)) ∨
    pool.toPool.find hashStateIds states = none ∧ ∃ j,
      pool.findOrStore states = some (BitVec.ofNat 64 pool.sets.length, pool.store states j) ∧
      (pool.sets.length < 2 ^ 32 - 1 →
        (pool.store states j).toPool = pool.toPool.add hashStateIds states) := by
  obtain ⟨j, hprobe⟩ := exists_probe_of_room hfree (hashStateIds states)
    fun id => decide (pool.statesOf id = some states)
  have hfind : pool.toPool.find hashStateIds states = bucketAt pool.table j := by
    rw [Interner.find]
    simp only [getElem?_items]
    exact congrArg (fun o => o.bind (bucketAt pool.table)) hprobe
  rw [hfind, findOrStore, hprobe]
  dsimp only
  cases hb : bucketAt pool.table j with
  | some id => exact .inl ⟨id, rfl, rfl⟩
  | none =>
    refine .inr ⟨rfl, j, rfl, fun hlt => ?_⟩
    have hplace : place pool.table (hashStateIds states) pool.sets.length =
        pool.table.set j (some pool.sets.length) := by
      rw [place, probe_of_bucketAt_eq_none hprobe hb]
    have hitems := items_store hpool states j
    have htable := table_store states j hlt
    rw [Interner.add, length_items]
    show Interner.mk _ _ = Interner.mk _ (place pool.table _ _)
    rw [hplace]
    exact congrArg₂ _ hitems htable

end IssPool

/-- The number as it is handed out. -/
def InternedStateSetId.encode : InternedStateSetId → BitVec 64
  | .singleton s => BitVec.ofNat 64 s ||| singletonBit
  | .set id => BitVec.ofNat 64 id

namespace IssPool

variable {pool : IssPool}

theorem internedStateSetInternSet_long (pool : InternedStateSetPool) (s s' : ℕ) (more : List ℕ) :
    internedStateSetInternSet pool (s :: s' :: more) =
      match (pool.reserve hashStateIds (pool.buckets.length / 2 < pool.items.length)
        (2 * pool.buckets.length)).find hashStateIds (s :: s' :: more) with
      | some id => (.set id, pool.reserve hashStateIds
          (pool.buckets.length / 2 < pool.items.length) (2 * pool.buckets.length))
      | none => (.set pool.items.length, (pool.reserve hashStateIds
          (pool.buckets.length / 2 < pool.items.length)
          (2 * pool.buckets.length)).add hashStateIds (s :: s' :: more)) := rfl

theorem items_internedStateSetInternSet (pool : InternedStateSetPool) {states : List ℕ}
    (hne : states ≠ []) : (internedStateSetInternSet pool states).2.items = pool.items ∨
      2 ≤ states.length ∧
        (internedStateSetInternSet pool states).2.items = pool.items ++ [states] := by
  match states with
  | [s] => exact .inl rfl
  | s :: s' :: more =>
    rw [internedStateSetInternSet_long]
    split
    · exact .inl rfl
    · exact .inr ⟨by simp, rfl⟩

/-- **One call**, with a number left below `NO_ID` if the list is new. -/
theorem Wf.internSet (hpool : pool.Wf) {states : List ℕ} (hne : states ≠ [])
    (hroom : 2 ≤ states.length → states ∈ pool.toPool.items ∨ pool.sets.length < 2 ^ 32 - 1) :
    ∃ pool', pool.internSet states =
        some ((internedStateSetInternSet pool.toPool states).1.encode, pool') ∧
      pool'.toPool = (internedStateSetInternSet pool.toPool states).2 ∧ pool'.Wf := by
  match states with
  | [s] => exact ⟨pool, rfl, rfl, hpool⟩
  | s :: s' :: more =>
    obtain ⟨hwf, hfree⟩ := hpool.reserve
    have hvalid := (internedStateSetInternSet_spec hpool.valid (s :: s' :: more)).1
    have hreserve : pool.toPool.reserve hashStateIds
        (pool.toPool.buckets.length / 2 < pool.toPool.items.length)
        (2 * pool.toPool.buckets.length) = pool.reserve.toPool := by
      have hbuckets : pool.toPool.buckets.length = pool.buckets.length := pool.length_table
      simp only [toPool_reserve, hbuckets, length_items, hpool.used]
    rw [internedStateSetInternSet_long, hreserve] at hvalid ⊢
    rw [IssPool.internSet]
    -- a known list is found; a new one needs a number below `NO_ID`
    rcases findOrStore_spec hwf hfree (s :: s' :: more) with
      ⟨id, hfind, hcall⟩ | ⟨hfind, j, hcall, hstore⟩
    · rw [hfind, hcall]
      exact ⟨pool.reserve, rfl, rfl, hwf⟩
    · have hnew : s :: s' :: more ∉ pool.toPool.items := by
        have hitems : pool.reserve.toPool.items = pool.toPool.items := by rw [toPool_reserve]; rfl
        rw [← hitems]
        exact hwf.valid.interner.find_eq_none_iff.mp hfind
      have hlt := (hroom (by simp)).resolve_left hnew
      rw [hfind] at hvalid ⊢
      have hpool' := hstore (by rwa [sets_reserve])
      rw [sets_reserve] at hcall
      rw [hcall, length_items]
      refine ⟨_, rfl, hpool', hwf.store _ j ?_⟩
      rw [hpool']
      exact hvalid

end IssPool

/-! ## §3 Numbers And Sets -/

theorem getLsbD_ofNat_of_lt {n : ℕ} (h : n < 2 ^ 32) : (BitVec.ofNat 64 n).getLsbD 63 = false := by
  rw [getLsbD_ofNat, Nat.testBit_lt_two_pow (h.trans (by decide)), Bool.and_false]

theorem encode_singleton_and (s : ℕ) :
    (InternedStateSetId.singleton s).encode &&& singletonBit ≠ 0 := by
  have hbit : ((InternedStateSetId.singleton s).encode &&& singletonBit).getLsbD 63 = true := by
    rw [InternedStateSetId.encode, singletonBit]
    simp
  intro hzero
  rw [hzero] at hbit
  simp at hbit

theorem encode_set_and {id : ℕ} (h : id < 2 ^ 32) :
    (InternedStateSetId.set id).encode &&& singletonBit = 0 := by
  rw [InternedStateSetId.encode, singletonBit, and_twoPow, getLsbD_ofNat_of_lt h]
  rfl

/-- The state is read back from its box. -/
theorem encode_singleton_mask {s : ℕ} (h : s < 2 ^ 32) :
    ((InternedStateSetId.singleton s).encode &&& ~~~singletonBit).toNat % 2 ^ 32 = s := by
  have hmask : (InternedStateSetId.singleton s).encode &&& ~~~singletonBit = BitVec.ofNat 64 s := by
    apply eq_of_getLsbD_eq
    intro i hi
    rw [InternedStateSetId.encode, singletonBit, getLsbD_and, getLsbD_or,
      getLsbD_not, getLsbD_twoPow]
    by_cases h63 : i = 63
    · subst h63
      rw [getLsbD_ofNat_of_lt h]
      rfl
    · simp [hi, Ne.symm h63]
  rw [hmask, toNat_ofNat, Nat.mod_eq_of_lt (h.trans (by decide)), Nat.mod_eq_of_lt h]

theorem toNat_encode_set {id : ℕ} (h : id < 2 ^ 32) :
    (InternedStateSetId.set id).encode.toNat = id := by
  rw [InternedStateSetId.encode, toNat_ofNat, Nat.mod_eq_of_lt (h.trans (by decide))]

/-- The state or index is a 32-bit number. -/
def InternedStateSetId.Small : InternedStateSetId → Prop
  | .singleton s => s < 2 ^ 32
  | .set id => id < 2 ^ 32

/-- Boxed states and indices do not collide. -/
theorem encode_injOn {iss iss' : InternedStateSetId} (h : iss.Small) (h' : iss'.Small)
    (heq : iss.encode = iss'.encode) : iss = iss' := by
  cases iss with
  | singleton s =>
    cases iss' with
    | singleton t =>
      rw [← encode_singleton_mask h, heq, encode_singleton_mask h']
    | set id => exact absurd (heq ▸ encode_set_and h') (encode_singleton_and s)
  | set id =>
    cases iss' with
    | singleton t => exact absurd (heq ▸ encode_set_and h) (encode_singleton_and t)
    | set id' => rw [← toNat_encode_set h, heq, toNat_encode_set h']

namespace IssPool

variable {pool : IssPool}

/-- Only the set that was built is new. -/
theorem Wf.cache (hpool : pool.Wf) {id : ℕ} (hid : id < pool.sets.length) :
    let s : IsspSet := pool.sets[id]
    let ss := (s.states pool.buf).foldl stateSetAdd .null
    let pool' := { pool with sets := pool.sets.set id { s with ss := some ss } }
    pool'.toPool = pool.toPool ∧ pool'.Wf := by
  intro s ss pool'
  have hitems : pool'.toPool = pool.toPool := by
    show Interner.mk ((pool.sets.set id { s with ss := some ss }).map _) pool.table = _
    rw [map_set]
    have hself : (pool.sets.map fun s => s.states pool.buf).set id (s.states pool.buf) =
        pool.sets.map fun s => s.states pool.buf := by
      rw [← map_set, set_getElem_self]
    exact congrArg (fun items => Interner.mk items pool.table) hself
  have hlen : (pool.sets.set id { s with ss := some ss }).length = pool.sets.length :=
    length_set
  refine ⟨hitems, ?_, ?_, hpool.used.trans hlen.symm, hpool.bufCeil, ?_, hitems ▸ hpool.valid⟩
  · intro t ht
    rcases mem_or_eq_of_mem_set ht with ht | rfl
    · exact hpool.inBuf t ht
    · exact hpool.inBuf s (getElem_mem hid)
  · intro t ht ss' hss'
    rcases mem_or_eq_of_mem_set ht with ht | rfl
    · exact hpool.cached t ht ss' hss'
    · exact (Option.some.inj hss').symm
  · exact ⟨hlen.trans_le hpool.setsCeil.1, hpool.setsCeil.2⟩

/-- **The set of a number**, built when it is asked for first and kept. -/
theorem Wf.getStateSet (hpool : pool.Wf) {iss : InternedStateSetId} (hhas : pool.toPool.Has iss)
    (hsmall : iss.Small) :
    ∃ pool', pool.getStateSet iss.encode =
        some ((pool.toPool.resolve iss).foldl stateSetAdd .null, pool') ∧
      pool'.toPool = pool.toPool ∧ pool'.Wf := by
  cases iss with
  | singleton s =>
    rw [IssPool.getStateSet, if_pos (encode_singleton_and s), encode_singleton_mask hsmall]
    exact ⟨pool, rfl, rfl, hpool⟩
  | set id =>
    have hid : id < pool.sets.length := hhas.trans_eq pool.length_items
    have hresolve : pool.toPool.resolve (.set id) = pool.sets[id].states pool.buf := by
      rw [InternedStateSetPool.resolve, getD_eq_getElem?_getD, getElem?_items, statesOf,
        List.getElem?_eq_getElem hid]
      rfl
    rw [hresolve, IssPool.getStateSet, encode_set_and hsmall, toNat_encode_set hsmall,
      List.getElem?_eq_getElem hid]
    simp only [ne_eq, not_true_eq_false, if_false]
    cases hss : pool.sets[id].ss with
    | some ss =>
      have hcached := hpool.cached _ (getElem_mem hid) ss hss
      exact ⟨pool, by rw [hcached], rfl, hpool⟩
    | none =>
      obtain ⟨hitems, hwf⟩ := hpool.cache hid
      exact ⟨_, rfl, hitems, hwf⟩

end IssPool

/-! ## §4 Sequences Of Calls -/

/-- A list of states as the caller of `interned_state_set_intern_set` hands it over. -/
@[ext]
structure StateIds where
  val : List ℕ
  ne_nil : val ≠ []
  ascending : val.Pairwise (· < ·)
  bound : ∀ s ∈ val, s < 2 ^ 32

/-- A call: a list, or the set for the number that was issued `k`-th. -/
inductive PoolCall where
  | intern (states : StateIds)
  | get (k : ℕ)

/-- The lists interned so far, with the numbers issued for them. -/
abbrev Issued := List (StateIds × BitVec 64)

def poolStep (st : IssPool × Issued) : PoolCall → Option (IssPool × Issued)
  | .intern states =>
    (st.1.internSet states.val).map fun (id, pool) => (pool, st.2 ++ [(states, id)])
  | .get k =>
    match st.2[k]? with
    | none => some st
    | some (_, id) => (st.1.getStateSet id).map fun (_, pool) => (pool, st.2)

/-- Calls from a new pool on. -/
def poolRun (calls : List PoolCall) : Option (IssPool × Issued) := calls.foldlM poolStep ({}, [])

/-- All calls return; equal numbers are issued for equal lists only, and each number that was
issued still stands for its list. -/
def Canonical (calls : List PoolCall) : Prop :=
  ∃ pool issued, poolRun calls = some (pool, issued) ∧
    (∀ e ∈ issued, ∀ e' ∈ issued, e.2 = e'.2 ↔ e.1 = e'.1) ∧
    ∀ e ∈ issued, ∃ set pool', pool.getStateSet e.2 = some (set, pool') ∧ set.toList = e.1.val

/-- The lists of two or more states among some lists. -/
def longLists (lists : Set StateIds) : Set StateIds := { l | l ∈ lists ∧ 2 ≤ l.val.length }

/-- What holds after calls with lists of a given set. -/
structure PoolInv (lists : Set StateIds) (pool : IssPool) (issued : Issued) : Prop where
  wf : pool.Wf
  stored : ∃ xs : List StateIds, xs.Nodup ∧ xs.map StateIds.val = pool.toPool.items ∧
    ∀ x ∈ xs, x ∈ longLists lists
  issued : ∀ e ∈ issued, ∃ iss : InternedStateSetId, e.2 = iss.encode ∧ pool.toPool.Has iss ∧
    pool.toPool.resolve iss = e.1.val

theorem length_le_encard {α : Type*} {xs : List α} {S : Set α} (hnodup : xs.Nodup)
    (hxs : ∀ x ∈ xs, x ∈ S) : (xs.length : ℕ∞) ≤ S.encard := by
  classical
  have hcard : ((xs.toFinset : Set α)).encard = xs.length := by
    rw [Set.encard_coe_eq_coe_finsetCard, toFinset_card_of_nodup hnodup]
  rw [← hcard]
  apply Set.encard_le_encard
  intro x hx
  exact hxs x (mem_toFinset.mp hx)

namespace PoolInv

variable {lists : Set StateIds} {pool : IssPool} {issued : Issued}

theorem sets_le (h : PoolInv lists pool issued) :
    (pool.sets.length : ℕ∞) ≤ (longLists lists).encard := by
  obtain ⟨xs, hnodup, hitems, hxs⟩ := h.stored
  have hlen : pool.sets.length = xs.length := by
    rw [← pool.length_items, ← hitems, length_map]
  rw [hlen]
  exact length_le_encard hnodup hxs

theorem small (h : PoolInv lists pool issued) (hfew : (longLists lists).encard < 2 ^ 32)
    {iss : InternedStateSetId} (hhas : pool.toPool.Has iss) {l : StateIds}
    (hres : pool.toPool.resolve iss = l.val) : iss.Small := by
  cases iss with
  | singleton s =>
    have hmem : s ∈ l.val := hres ▸ mem_singleton_self s
    exact l.bound s hmem
  | set id =>
    have hid : id < pool.sets.length := hhas.trans_eq pool.length_items
    have hlt := h.sets_le.trans_lt hfew
    exact hid.trans (by exact_mod_cast hlt)

/-- The lists that are stored after a call. -/
theorem stored_intern {l : StateIds} (hl : l ∈ lists) {xs : List StateIds} (hnodup : xs.Nodup)
    (hitems : xs.map StateIds.val = pool.toPool.items) (hxs : ∀ x ∈ xs, x ∈ longLists lists)
    {pool' : IssPool} (hpool' : pool'.toPool = (internedStateSetInternSet pool.toPool l.val).2)
    (hwf : pool'.Wf) : ∃ xs : List StateIds, xs.Nodup ∧ xs.map StateIds.val = pool'.toPool.items ∧
      ∀ x ∈ xs, x ∈ longLists lists := by
  have hnodup' := hwf.valid.interner.nodup
  rcases IssPool.items_internedStateSetInternSet pool.toPool l.ne_nil with hsame | ⟨hlen, hadd⟩
  · exact ⟨xs, hnodup, by rw [hitems, hpool', hsame], hxs⟩
  · rw [hpool', hadd] at hnodup' ⊢
    rw [← hitems] at hnodup' ⊢
    refine ⟨xs ++ [l], ?_, by rw [map_append, map_singleton], ?_⟩
    · apply List.Nodup.of_map StateIds.val
      rwa [map_append]
    · intro x hx
      rcases mem_append.mp hx with hx | hx
      · exact hxs x hx
      · rw [List.mem_singleton.mp hx]
        exact ⟨hl, hlen⟩

/-- **One step**, with fewer than `2 ^ 32` lists of two or more states around. -/
theorem step (h : PoolInv lists pool issued) (hfew : (longLists lists).encard < 2 ^ 32)
    (call : PoolCall) (hcall : ∀ l, call = .intern l → l ∈ lists) :
    ∃ pool' issued', poolStep (pool, issued) call = some (pool', issued') ∧
      PoolInv lists pool' issued' := by
  cases call with
  | get k =>
    rw [poolStep]
    cases hk : issued[k]? with
    | none => exact ⟨pool, issued, rfl, h⟩
    | some e =>
      obtain ⟨iss, hid, hhas, hres⟩ := h.issued e (mem_of_getElem? hk)
      obtain ⟨pool', hget, hpool', hwf⟩ := h.wf.getStateSet hhas (h.small hfew hhas hres)
      refine ⟨pool', issued, ?_, hwf, ?_, ?_⟩
      · dsimp only
        rw [hid, hget]
        rfl
      · rw [hpool']
        exact h.stored
      · rw [hpool']
        exact h.issued
  | intern l =>
    have hl := hcall l rfl
    obtain ⟨xs, hnodup, hitems, hxs⟩ := h.stored
    -- a new list leaves room for itself among the lists that may come
    have hroom : 2 ≤ l.val.length →
        l.val ∈ pool.toPool.items ∨ pool.sets.length < 2 ^ 32 - 1 := by
      intro hlen
      by_cases hmem : l.val ∈ pool.toPool.items
      · exact .inl hmem
      · have hnew : l ∉ xs := by
          intro hin
          exact hmem (hitems ▸ mem_map_of_mem hin)
        have hmore := length_le_encard (S := longLists lists) (hnodup.cons hnew) (by
          intro x hx
          rcases mem_cons.mp hx with rfl | hx
          · exact ⟨hl, hlen⟩
          · exact hxs x hx)
        have hlt := hmore.trans_lt hfew
        have hlt : xs.length + 1 < 2 ^ 32 := by exact_mod_cast hlt
        have hsets : pool.sets.length = xs.length := by
          rw [← pool.length_items, ← hitems, length_map]
        exact .inr (by omega)
    obtain ⟨pool', hintern, hpool', hwf⟩ := h.wf.internSet l.ne_nil hroom
    obtain ⟨-, hext, hhas, hres⟩ := internedStateSetInternSet_spec h.wf.valid l.val
    rw [← hpool'] at hext hhas hres
    refine ⟨pool', issued ++ [(l, (internedStateSetInternSet pool.toPool l.val).1.encode)],
      ?_, hwf, ?_, ?_⟩
    · rw [poolStep]
      rw [hintern]
      rfl
    · exact stored_intern hl hnodup hitems hxs hpool' hwf
    · intro e he
      rcases mem_append.mp he with he | he
      · obtain ⟨iss, hid, hhas, hres⟩ := h.issued e he
        exact ⟨iss, hid, hhas.mono hext, (hhas.resolve_eq hext).trans hres⟩
      · rw [List.mem_singleton.mp he]
        exact ⟨_, rfl, hhas, hres⟩

/-- **Whole runs.** -/
theorem run (hfew : (longLists lists).encard < 2 ^ 32) {calls : List PoolCall}
    (hcalls : ∀ l, .intern l ∈ calls → l ∈ lists) (h : PoolInv lists pool issued) :
    ∃ pool' issued', calls.foldlM poolStep (pool, issued) = some (pool', issued') ∧
      PoolInv lists pool' issued' := by
  induction calls generalizing pool issued with
  | nil => exact ⟨pool, issued, rfl, h⟩
  | cons call calls ih =>
    obtain ⟨pool₁, issued₁, hstep, h₁⟩ := h.step hfew call (by
      rintro l rfl
      exact hcalls l mem_cons_self)
    obtain ⟨pool', issued', hrun, h'⟩ := ih (fun l hl => hcalls l (mem_cons_of_mem _ hl)) h₁
    refine ⟨pool', issued', ?_, h'⟩
    rw [foldlM_cons, hstep]
    exact hrun

theorem alloc (lists : Set StateIds) : PoolInv lists {} [] where
  wf := IssPool.wf_alloc
  stored := ⟨[], nodup_nil, rfl, fun _ hx => absurd hx not_mem_nil⟩
  issued _ he := absurd he not_mem_nil

theorem canonical (h : PoolInv lists pool issued) (hfew : (longLists lists).encard < 2 ^ 32) :
    (∀ e ∈ issued, ∀ e' ∈ issued, e.2 = e'.2 ↔ e.1 = e'.1) ∧
      ∀ e ∈ issued, ∃ set pool', pool.getStateSet e.2 = some (set, pool') ∧
        set.toList = e.1.val := by
  refine ⟨fun e he e' he' => ?_, fun e he => ?_⟩
  · obtain ⟨iss, hid, hhas, hres⟩ := h.issued e he
    obtain ⟨iss', hid', hhas', hres'⟩ := h.issued e' he'
    constructor
    · intro heq
      rw [hid, hid'] at heq
      have hiss := encode_injOn (h.small hfew hhas hres) (h.small hfew hhas' hres') heq
      apply StateIds.ext
      rw [← hres, ← hres', hiss]
    · intro heq
      have hiss := h.wf.valid.resolve_injOn hhas hhas' (by rw [hres, hres', heq])
      rw [hid, hid', hiss]
  · obtain ⟨iss, hid, hhas, hres⟩ := h.issued e he
    obtain ⟨pool', hget, -, -⟩ := h.wf.getStateSet hhas (h.small hfew hhas hres)
    refine ⟨_, pool', hid ▸ hget, ?_⟩
    rw [hres]
    exact toList_foldl_stateSetAdd e.1.ascending

end PoolInv

/-! ## §5 The Last Number -/

theorem IssPool.internSet_long (pool : IssPool) {states : List ℕ} (h : 2 ≤ states.length) :
    pool.internSet states = pool.reserve.findOrStore states := by
  match states with
  | s :: s' :: more => rfl

/-- A number that is handed out for a list of two or more states comes from a bucket, or is new. -/
theorem IssPool.internSet_cases {pool pool' : IssPool} {states : List ℕ} {id : BitVec 64}
    (hlen : 2 ≤ states.length) (h : pool.internSet states = some (id, pool')) :
    (∃ n < 2 ^ 32 - 1, id = BitVec.ofNat 64 n) ∨ id = BitVec.ofNat 64 pool.sets.length := by
  rw [pool.internSet_long hlen, IssPool.findOrStore, pool.sets_reserve] at h
  split at h
  · cases h
  · split at h
    · rename_i n hb
      have hid : BitVec.ofNat 64 n = id := congrArg Prod.fst (Option.some.inj h)
      obtain ⟨o, ho, hon⟩ := mem_filterMap.mp (Lib.mem_entries.mpr ⟨_, hb⟩)
      obtain ⟨b, -, hbo⟩ := mem_map.mp ho
      exact .inl ⟨n, bucketId_lt (hbo.trans hon), hid.symm⟩
    · exact .inr (congrArg Prod.fst (Option.some.inj h)).symm

/-- Calls that only intern issue a number for each list. -/
theorem map_fst_issued {xs : List StateIds} {pool pool' : IssPool} {issued issued' : Issued}
    (h : (xs.map PoolCall.intern).foldlM poolStep (pool, issued) = some (pool', issued')) :
    issued'.map Prod.fst = issued.map Prod.fst ++ xs := by
  induction xs generalizing pool issued with
  | nil =>
    have heq : (pool, issued) = (pool', issued') := Option.some.inj h
    rw [(Prod.mk.inj heq).2, append_nil]
  | cons x xs ih =>
    obtain ⟨st, hst, hrest⟩ := Option.bind_eq_some_iff.mp h
    obtain ⟨⟨id, pool₁⟩, -, rfl⟩ := Option.map_eq_some_iff.mp hst
    rw [ih hrest, map_append, List.append_assoc]
    rfl

/-- All lists of two or more states for which numbers were issued are stored. -/
theorem PoolInv.mem_items {lists : Set StateIds} {pool : IssPool} {issued : Issued}
    (h : PoolInv lists pool issued) {x : StateIds} (hx : x ∈ issued.map Prod.fst)
    (hlen : 2 ≤ x.val.length) : x.val ∈ pool.toPool.items := by
  obtain ⟨e, he, rfl⟩ := mem_map.mp hx
  obtain ⟨iss, -, hhas, hres⟩ := h.issued e he
  cases iss with
  | singleton s =>
    rw [← hres] at hlen
    simp [InternedStateSetPool.resolve] at hlen
  | set id =>
    have hid : id < pool.toPool.items.length := hhas
    rw [InternedStateSetPool.resolve, getD_eq_getElem _ _ hid] at hres
    exact hres ▸ getElem_mem hid

theorem encard_longLists_le (xs : List StateIds) :
    (longLists { x | x ∈ xs }).encard ≤ xs.length := by
  classical
  have hsub : longLists { x | x ∈ xs } ⊆ (xs.toFinset : Set StateIds) := by
    intro x hx
    exact mem_toFinset.mpr hx.1
  have hcard : xs.toFinset.card ≤ xs.length := toFinset_card_le xs
  calc (longLists { x | x ∈ xs }).encard
      ≤ ((xs.toFinset : Set StateIds)).encard := Set.encard_le_encard hsub
    _ = xs.toFinset.card := Set.encard_coe_eq_coe_finsetCard _
    _ ≤ xs.length := by exact_mod_cast hcard

/-- After calls for `2 ^ 32 - 1` lists of two or more states, all of them are stored. -/
theorem exists_full {xs : List StateIds} (hnodup : xs.Nodup)
    (hlong : ∀ x ∈ xs, 2 ≤ x.val.length) (hlen : xs.length = 2 ^ 32 - 1) :
    ∃ pool issued, poolRun (xs.map .intern) = some (pool, issued) ∧
      PoolInv { x | x ∈ xs } pool issued ∧ pool.sets.length = 2 ^ 32 - 1 := by
  have hle := encard_longLists_le xs
  have hfew : (longLists { x | x ∈ xs }).encard < 2 ^ 32 := by
    apply hle.trans_lt
    rw [hlen]
    have hlt : 2 ^ 32 - 1 < 2 ^ 32 := by omega
    exact_mod_cast hlt
  have hcalls : ∀ l, PoolCall.intern l ∈ xs.map PoolCall.intern → l ∈ { x | x ∈ xs } := by
    intro l hl
    obtain ⟨x, hx, heq⟩ := mem_map.mp hl
    cases heq
    exact hx
  obtain ⟨pool, issued, hrun, hinv⟩ := (PoolInv.alloc { x | x ∈ xs }).run hfew hcalls
  refine ⟨pool, issued, hrun, hinv, ?_⟩
  have hissued : issued.map Prod.fst = xs := map_fst_issued hrun
  -- each list is stored, and no two in one place
  have hsub : xs.map StateIds.val ⊆ pool.toPool.items := by
    intro l hl
    obtain ⟨x, hx, rfl⟩ := mem_map.mp hl
    exact hinv.mem_items (hissued.symm ▸ hx) (hlong x hx)
  have hinj : (xs.map StateIds.val).Nodup :=
    hnodup.map fun x y h => StateIds.ext h
  have hge := (hinj.subperm hsub).length_le
  rw [length_map, pool.length_items] at hge
  have hup := hinv.sets_le.trans hle
  rw [hlen] at hup
  have hup : pool.sets.length ≤ 2 ^ 32 - 1 := by exact_mod_cast hup
  omega

/-- With `2 ^ 32 - 1` lists stored, the next one gets the number `NO_ID`, and then another one. -/
theorem not_canonical_of_full {xs : List StateIds} (hnodup : xs.Nodup)
    (hlong : ∀ x ∈ xs, 2 ≤ x.val.length) (hlen : xs.length = 2 ^ 32 - 1) {l : StateIds}
    (hl : 2 ≤ l.val.length) (hnew : l ∉ xs) :
    ¬ Canonical (xs.map .intern ++ [.intern l, .intern l]) := by
  intro ⟨pool₃, issued₃, hrun, hiff, _⟩
  obtain ⟨pool, issued, hfull, hinv, hsets⟩ := exists_full hnodup hlong hlen
  obtain ⟨hwf, hfree⟩ := hinv.wf.reserve
  have hnotin : l.val ∉ pool.reserve.toPool.items := by
    rw [IssPool.toPool_reserve]
    obtain ⟨ys, -, hitems, hys⟩ := hinv.stored
    intro hmem
    obtain ⟨y, hy, heq⟩ := mem_map.mp (hitems.symm ▸ hmem)
    exact hnew (StateIds.ext heq ▸ (hys y hy).1)
  rw [poolRun, foldlM_append] at hrun
  obtain ⟨st, hst, hrun⟩ := Option.bind_eq_some_iff.mp hrun
  cases hfull.symm.trans hst
  -- the list is not found and gets the number of the next descriptor
  rcases IssPool.findOrStore_spec hwf hfree l.val with ⟨id, hfind, -⟩ | ⟨-, j, hstore, -⟩
  · rw [hwf.valid.interner.find_eq_none_iff.mpr hnotin] at hfind
    cases hfind
  · have hfirst : pool.internSet l.val =
        some (BitVec.ofNat 64 (2 ^ 32 - 1), pool.reserve.store l.val j) := by
      rw [pool.internSet_long hl, hstore, pool.sets_reserve, hsets]
    rw [foldlM_cons, poolStep, hfirst] at hrun
    obtain ⟨st, hst, hrun⟩ := Option.bind_eq_some_iff.mp hrun
    cases hst
    obtain ⟨st, hst, hrun⟩ := Option.bind_eq_some_iff.mp hrun
    obtain ⟨⟨id, pool₂⟩, hsecond, rfl⟩ := Option.map_eq_some_iff.mp hst
    have heq := Option.some.inj hrun
    have hissued : issued₃ = issued ++ [(l, BitVec.ofNat 64 (2 ^ 32 - 1))] ++ [(l, id)] :=
      (congrArg Prod.snd heq).symm
    have hsame : BitVec.ofNat 64 (2 ^ 32 - 1) = id :=
      (hiff (l, _) (by rw [hissued]; simp) (l, id) (by rw [hissued]; simp)).mpr rfl
    -- a second number cannot be the first one: that one is never read back from a bucket
    have hcount : (pool.reserve.store l.val j).sets.length = 2 ^ 32 := by
      show (pool.reserve.sets ++ [_]).length = 2 ^ 32
      rw [length_append, pool.sets_reserve, length_singleton]
      omega
    have hnat := congrArg BitVec.toNat hsame
    rcases IssPool.internSet_cases hl hsecond with ⟨n, hn, hid⟩ | hid
    · rw [hid, toNat_ofNat, toNat_ofNat] at hnat
      omega
    · rw [hid, hcount, toNat_ofNat, toNat_ofNat] at hnat
      omega

/-- **Canonical numbers**: all sequences of calls with lists of some set are, exactly when fewer
than `2 ^ 32` lists of the set have two or more states. -/
theorem canonical_iff (lists : Set StateIds) :
    (∀ calls, (∀ l, PoolCall.intern l ∈ calls → l ∈ lists) → Canonical calls) ↔
      { l | l ∈ lists ∧ 2 ≤ l.val.length }.encard < 2 ^ 32 := by
  constructor
  · intro hcanon
    by_contra hmany
    -- take `2 ^ 32` long lists: all but one fill the pool, and the last has no number left
    have hle : ((2 ^ 32 : ℕ) : ℕ∞) ≤ (longLists lists).encard := by
      have := not_lt.mp hmany
      exact_mod_cast this
    obtain ⟨T, hT, hcard⟩ := Set.exists_subset_encard_eq hle
    obtain ⟨F, rfl⟩ := (Set.finite_of_encard_eq_coe hcard).exists_finset_coe
    have hlen : F.toList.length = 2 ^ 32 := by
      rw [Finset.length_toList]
      exact_mod_cast hcard
    have hpos : 0 < F.toList.length := by omega
    obtain ⟨l, xs, hlist⟩ : ∃ l xs, F.toList = l :: xs := exists_cons_of_length_pos hpos
    have hnodup : (l :: xs).Nodup := hlist ▸ F.nodup_toList
    have hmem : ∀ x ∈ l :: xs, x ∈ longLists lists := by
      intro x hx
      exact hT (Finset.mem_coe.mpr (Finset.mem_toList.mp (hlist ▸ hx)))
    rw [hlist, length_cons] at hlen
    obtain ⟨hnew, hnodup⟩ := nodup_cons.mp hnodup
    refine not_canonical_of_full hnodup (fun x hx => (hmem x (mem_cons_of_mem l hx)).2)
      (by omega) (hmem l mem_cons_self).2 hnew (hcanon _ ?_)
    intro y hy
    simp only [mem_append, mem_map, PoolCall.intern.injEq, exists_eq_right,
      mem_cons, not_mem_nil, or_false, or_self] at hy
    rcases hy with hy | rfl
    · exact (hmem y (mem_cons_of_mem l hy)).1
    · exact (hmem y mem_cons_self).1
  · intro hfew calls hcalls
    obtain ⟨pool, issued, hrun, hinv⟩ := (PoolInv.alloc lists).run hfew hcalls
    exact ⟨pool, issued, hrun, hinv.canonical hfew⟩

/-- The list `0, k + 1`. -/
def zeroAnd (k : Fin (2 ^ 32 - 1)) : StateIds where
  val := [0, k.val + 1]
  ne_nil := cons_ne_nil _ _
  ascending := by simp
  bound := by
    have hk := k.isLt
    simp only [mem_cons, not_mem_nil, or_false, forall_eq_or_imp, forall_eq]
    omega

/-- The list `1, 2`. -/
def oneAndTwo : StateIds where
  val := [1, 2]
  ne_nil := cons_ne_nil _ _
  ascending := by simp
  bound := by simp

/-- After all lists of 0 and one other state, `1, 2` gets two different numbers. -/
theorem not_canonical_pairs : ¬ Canonical (((finRange (2 ^ 32 - 1)).map zeroAnd).map .intern ++
    [.intern oneAndTwo, .intern oneAndTwo]) := by
  apply not_canonical_of_full
  · apply (nodup_finRange _).map
    intro k k' h
    have hval : [0, k.val + 1] = [0, k'.val + 1] := congrArg StateIds.val h
    simp only [List.cons.injEq, and_true, true_and, Nat.add_right_cancel_iff] at hval
    exact Fin.ext hval
  · intro x hx
    obtain ⟨k, -, rfl⟩ := mem_map.mp hx
    exact le_refl 2
  · rw [length_map, length_finRange]
  · exact le_refl 2
  · intro hmem
    obtain ⟨k, -, h⟩ := mem_map.mp hmem
    have hval : [0, k.val + 1] = [1, 2] := congrArg StateIds.val h
    simp at hval

end Libfsm
