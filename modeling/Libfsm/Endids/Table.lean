import Libfsm.Adt.InternedStateSet
import Libfsm.Ops.Compact
import Mathlib.Data.Finset.Sort

/-!
# The End ID Table

The hash table of `endids.c`, from states to ascending arrays of end IDs.  Collisions go to the
next bucket, the number of buckets is a power of two and doubles when half of them are used, and
nothing is ever taken out, except that `fsm_endid_compact` builds the table afresh.

The functions give nothing where an assertion of the source fails.  Memory can always be had.  The
counters are `unsigned`: sizes that are doubled wrap around at 2 ^ 32.

- `EndidInfo`: the table
- `endidFindBucket`, `growEndidBuckets`: where the IDs of a state are, or are to be put
- `fsmEndidSet`, `fsmEndidSetBulk`, `fsmMapendids`, `fsmIncrendids`, `fsmEndidCompact`: writing
- `fsmEndidCount`, `fsmEndidGet`, `fsmEndidIter`: reading
- `Stores`: the table stands for a map from states to buckets
- `EndidInfo.counters`, `counters_endidFindBucket`: what decides whether a new state finds a bucket
-/

namespace Libfsm

open Lib Function
open List hiding count prev set replace nil cons

variable {s : ℕ} {ids : List ℕ}

/-! ## §1 The Table -/

/-- `struct endid_info_bucket` of a state, with the fields of its `struct end_info_ids`.  The
array in use is `ids`; `ceil` is its allocated size. -/
structure EndidInfoBucket where
  state : ℕ
  ids : List ℕ
  ceil : ℕ
  deriving DecidableEq, Repr

/-- `struct endid_info`.  A bucket with `BUCKET_NO_STATE` is `none`. -/
structure EndidInfo where
  buckets : List (Option EndidInfoBucket)
  bucketsUsed : ℕ
  deriving DecidableEq, Repr

def EndidInfo.bucketCount (ei : EndidInfo) : ℕ := ei.buckets.length

/-- The counters of a table, and how many of its buckets are in use. -/
def EndidInfo.counters (ei : EndidInfo) : EndidCounters :=
  ⟨ei.bucketCount, ei.bucketsUsed, usedBuckets ei.buckets⟩

variable {b : EndidInfoBucket}

namespace EndidTable

def defBucketCount : ℕ := 4

def defBucketIdCount : ℕ := 16

def fsmEndidInit : EndidInfo :=
  { buckets := replicate defBucketCount none, bucketsUsed := 0 }

/-- The hash of a state. -/
def hashOf (state : ℕ) : ℕ := (hashId (UInt64.ofNat state)).toNat

/-- What is asserted of every number of buckets.  It makes `& mask` a remainder. -/
def isPowerOf2 (count : ℕ) : Bool := (count - 1) &&& count == 0

/-! ## §2 Finding A Bucket -/

def growEndidBuckets (info : EndidInfo) : Option EndidInfo := do
  let newCount := 2 * info.bucketCount % 2 ^ 32
  guard (info.bucketCount < newCount)
  guard (isPowerOf2 newCount)
  let newBuckets ← (entries info.buckets).foldlM (fun new b => place? new (hashOf b.state) b)
    (replicate newCount none)
  -- `new_used` counts the entries that were copied
  guard ((entries info.buckets).length = info.bucketsUsed)
  return { info with buckets := newBuckets }

/-- The loop of `endid_find_bucket` from the label `rehash` on, when the table may still grow
`grows` times.  The result is the table and the index of the bucket. -/
def findBucketFrom : ℕ → EndidInfo → ℕ → Option (EndidInfo × ℕ)
  | grows, ei, state => do
    guard (isPowerOf2 ei.bucketCount)
    let j ← probe ei.buckets (hashOf state) fun b => b.state == state
    if bucketAt ei.buckets j = none ∧ ei.bucketsUsed = ei.bucketCount / 2 then
      match grows with
      | 0 => none
      | grows + 1 =>
        let ei ← growEndidBuckets ei
        findBucketFrom grows ei state
    else return (ei, j)

/-- `endid_find_bucket`, which grows the table at most once. -/
def endidFindBucket (ei : EndidInfo) (state : ℕ) : Option (EndidInfo × ℕ) :=
  findBucketFrom 1 ei state

/-! ## §3 Writing -/

/-- The binary search of `bisect_left_sorted_ids`, between `lo` and `hi - 1`, and the
assertions after it.  The number of IDs is fuel enough. -/
def bisectLoop (itm : ℕ) (ids : List ℕ) : ℕ → ℕ → ℕ → Option ℕ
  | 0, _, _ => none
  | fuel + 1, lo, hi =>
    if lo < hi then
      let mid := (lo + (hi - 1)) / 2
      if itm = ids.getD mid 0 then some mid
      else if itm < ids.getD mid 0 then bisectLoop itm ids fuel lo mid
      else bisectLoop itm ids fuel (mid + 1) hi
    else if lo = hi ∧ 0 < hi ∧ ids.getD (hi - 1) 0 < itm ∧ itm ≤ ids.getD lo 0 then some lo
    else none

/-- `bisect_left_sorted_ids`, with the fast paths for empty, prepend and append. -/
def bisectLeftSortedIds (itm : ℕ) (ids : List ℕ) : Option ℕ :=
  if ids.length = 0 then some 0
  else if itm < ids.getD 0 0 then some 0
  else if ids.getD (ids.length - 1) 0 < itm then some ids.length
  else bisectLoop itm ids (ids.length + 1) 0 ids.length

/-- Put an ID at the place the search reported, unless it is there. -/
def insertIdAt (ids : List ℕ) (id ind : ℕ) : List ℕ :=
  if ind = ids.length then ids ++ [id]
  else if ids.getD ind 0 = id then ids
  else ids.take ind ++ id :: ids.drop ind

def fsmEndidSet (ei : EndidInfo) (state id : ℕ) : Option EndidInfo := do
  let (ei, j) ← endidFindBucket ei state
  match bucketAt ei.buckets j with
  | none =>
    let b : EndidInfoBucket := { state := state, ids := [id], ceil := defBucketIdCount }
    return { buckets := ei.buckets.set j (some b), bucketsUsed := ei.bucketsUsed + 1 }
  | some b =>
    guard (b.state = state)
    let ceil := if b.ids.length = b.ceil then 2 * b.ceil % 2 ^ 32 else b.ceil
    -- `nceil > ceil`, and the write at the end stays inside the array
    guard (b.ids.length < ceil)
    let ind ← bisectLeftSortedIds id b.ids
    guard (ind ≤ b.ids.length)
    let b := { b with ids := insertIdAt b.ids id ind, ceil := ceil }
    return { ei with buckets := ei.buckets.set j (some b) }

/-- `fsm_endid_set_bulk` with at least one ID -/
def fsmEndidSetBulk (ei : EndidInfo) (state : ℕ) (ids : List ℕ) (op : EndidBulkOp) :
    Option EndidInfo := do
  let (ei, j) ← endidFindBucket ei state
  match bucketAt ei.buckets j with
  | some b =>
    guard (b.state = state)
    let prev := if op = .replace then [] else b.ids
    let total := ids.length + prev.length
    -- doubling goes on for ever from zero, and what it arrives at is stored as an `unsigned`
    let ceil := if b.ceil < total then doubleUntil total total (2 * b.ceil % 2 ^ 32) % 2 ^ 32
      else b.ceil
    guard (total ≤ ceil)
    let b := { b with ids := sortDedup (prev ++ ids), ceil := ceil }
    return { ei with buckets := ei.buckets.set j (some b) }
  | none =>
    let ceil := doubleUntil ids.length ids.length defBucketIdCount % 2 ^ 32
    -- so is the number of IDs; the loop that drops repeats leaves at least one
    let ids := ids.take (max 1 (ids.length % 2 ^ 32))
    let b : EndidInfoBucket := { state := state, ids := sortDedup ids, ceil := ceil }
    return { buckets := ei.buckets.set j (some b), bucketsUsed := ei.bucketsUsed + 1 }

/-- A `fsm_endid_remap_fun` and the data behind its `opaque` pointer.  The function is given a
state and its IDs; it gives the IDs it has written and whether to continue. -/
structure RemapFun where
  Env : Type
  env : Env
  remap : Env → ℕ → List ℕ → List ℕ × Bool × Env
  /-- "This must be in the range: 0 < *num_written <= num_ids." -/
  writes : ∀ w s ids, ids ≠ [] → (remap w s ids).1 ≠ [] ∧ (remap w s ids).1.length ≤ ids.length

/-- The loop of `fsm_mapendids` over the buckets, with its return value. -/
def mapBuckets (r : RemapFun) :
    r.Env → List (Option EndidInfoBucket) → Option (List (Option EndidInfoBucket) × Bool)
  | _, [] => some ([], true)
  | w, none :: bs => (mapBuckets r w bs).map fun res => (none :: res.1, res.2)
  | w, some b :: bs => do
    let (written, ret, w) := r.remap w b.state b.ids
    guard (written.length ≤ b.ids.length)
    let b := if 0 < written.length then { b with ids := sortDedup written } else b
    if ret then
      let (bs, ret) ← mapBuckets r w bs
      return (some b :: bs, ret)
    else return (some b :: bs, false)

def fsmMapendids (ei : EndidInfo) (r : RemapFun) : Option (EndidInfo × Bool) := do
  let (buckets, ret) ← mapBuckets r r.env ei.buckets
  return ({ ei with buckets := buckets }, ret)

/-- `endids[i] += delta`, in the arithmetic of `fsm_end_id_t` -/
def incrId (delta : ℤ) (id : ℕ) : ℕ := ((id + delta) % 2 ^ 32).toNat

def incrRemap (delta : ℤ) : RemapFun where
  Env := Unit
  env := ()
  remap w _ ids := (ids.map (incrId delta), true, w)
  writes w s ids hids := by simpa using hids

def fsmIncrendids (ei : EndidInfo) (delta : ℤ) : Option EndidInfo :=
  if delta = 0 then some ei else (fsmMapendids ei (incrRemap delta)).map Prod.fst

/-- The placing of one old bucket by `fsm_endid_compact`. -/
def compactBucket (mapping : List (Option ℕ)) (new : List (Option EndidInfoBucket))
    (ob : EndidInfoBucket) : Option (List (Option EndidInfoBucket)) := do
  guard (ob.state < mapping.length)
  match mappingCb mapping ob.state with
  | none => return new
  | some nstate => place? new (hashOf nstate) { ob with state := nstate }

def fsmEndidCompact (ei : EndidInfo) (mapping : List (Option ℕ)) : Option EndidInfo :=
  if mappingChanges mapping then do
    guard (isPowerOf2 ei.bucketCount)
    let nbuckets ← (entries ei.buckets).foldlM (compactBucket mapping)
      (replicate ei.bucketCount none)
    return { ei with buckets := nbuckets }
  else some ei

/-! ## §4 Reading -/

/-- The loop of `fsm_endid_count` and `fsm_endid_get`: the bucket of a state. -/
def findBucket (ei : EndidInfo) (state : ℕ) : Option (Option EndidInfoBucket) := do
  guard (isPowerOf2 ei.bucketCount)
  let j ← probe ei.buckets (hashOf state) fun b => b.state == state
  return bucketAt ei.buckets j

def fsmEndidCount (ei : EndidInfo) (state : ℕ) : Option ℕ :=
  (findBucket ei state).map fun
    | none => 0
    | some b => b.ids.length

/-- `fsm_endid_get` with room for `count` IDs: nothing if that is not enough, else the IDs
written. -/
def fsmEndidGet (ei : EndidInfo) (endState count : ℕ) : Option (Option (List ℕ)) :=
  (findBucket ei endState).map fun
    | none => some []
    | some b => if count < b.ids.length then none else some (b.ids.insertionSort (· ≤ ·))

/-- The inner loop of `fsm_endid_iter`: call `cb` on the IDs of a state until it gives false. -/
def iterIds {ω : Type*} (cb : ω → ℕ → ℕ → ω × Bool) (state : ℕ) : List ℕ → ω → ω
  | [], w => w
  | id :: ids, w =>
    match cb w state id with
    | (w, true) => iterIds cb state ids w
    | (w, false) => w

/-- `fsm_endid_iter`.  The callback does not write to the table. -/
def fsmEndidIter {ω : Type*} (ei : EndidInfo) (cb : ω → ℕ → ℕ → ω × Bool) (w : ω) : ω :=
  (entries ei.buckets).foldl (fun w b => iterIds cb b.state b.ids w) w

/-! ## §5 Searching For An ID -/

section Bisect

variable {itm : ℕ} {ids : List ℕ}

/-- Everything before index `k` lies below the ID, nothing from `k` on does. -/
def LeastUpper (itm : ℕ) (ids : List ℕ) (k : ℕ) : Prop :=
  k ≤ ids.length ∧ (∀ i < k, ids.getD i 0 < itm) ∧
    ∀ i, k ≤ i → i < ids.length → itm ≤ ids.getD i 0

private theorem getD_lt_getD (hs : ids.Pairwise (· < ·)) {i j : ℕ} (hij : i < j)
    (hj : j < ids.length) : ids.getD i 0 < ids.getD j 0 := by
  have hi : i < ids.length := by omega
  rw [getD_eq_getElem _ _ hi, getD_eq_getElem _ _ hj]
  exact pairwise_iff_getElem.mp hs i j hi hj hij

private theorem getD_le_getD (hs : ids.Pairwise (· < ·)) {i j : ℕ} (hij : i ≤ j)
    (hj : j < ids.length) : ids.getD i 0 ≤ ids.getD j 0 := by
  rcases Nat.lt_or_eq_of_le hij with h | rfl
  · exact (getD_lt_getD hs h hj).le
  · rfl

/-- The loop, between bounds that enclose the place of the ID.  Neither bound reaches an end of
the array in the end, since the ID lies between the first and the last. -/
theorem bisectLoop_spec (hs : ids.Pairwise (· < ·)) (hfirst : ids.getD 0 0 ≤ itm)
    (hlast : itm ≤ ids.getD (ids.length - 1) 0) {fuel lo hi : ℕ} (hfuel : hi - lo < fuel)
    (hle : lo ≤ hi) (hhi : hi ≤ ids.length) (hbelow : ∀ i < lo, ids.getD i 0 < itm)
    (habove : ∀ i, hi ≤ i → i < ids.length → itm < ids.getD i 0) (hne : 0 < ids.length) :
    ∃ k, bisectLoop itm ids fuel lo hi = some k ∧ LeastUpper itm ids k := by
  induction fuel generalizing lo hi with
  | zero => cases hfuel
  | succ fuel ih =>
    unfold bisectLoop
    split
    · have hmid : lo ≤ (lo + (hi - 1)) / 2 ∧ (lo + (hi - 1)) / 2 < hi := by omega
      obtain ⟨hlomid, hmidhi⟩ := hmid
      set mid := (lo + (hi - 1)) / 2
      have hmidlen : mid < ids.length := by omega
      dsimp only
      split
      · rename_i heq
        refine ⟨mid, rfl, hmidlen.le, fun i hi => ?_, fun i hi hilen => ?_⟩
        · exact heq ▸ getD_lt_getD hs hi hmidlen
        · exact heq ▸ getD_le_getD hs hi hilen
      · rename_i hneq
        split
        · rename_i hless
          refine ih (by omega) hlomid (by omega) hbelow fun i hi hilen => ?_
          exact lt_of_lt_of_le hless (getD_le_getD hs hi hilen)
        · rename_i hnless
          refine ih (by omega) (by omega) hhi (fun i hi => ?_) habove
          exact lt_of_le_of_lt (getD_le_getD hs (Nat.le_of_lt_succ hi) hmidlen)
            (lt_of_le_of_ne (not_lt.mp hnless) (Ne.symm hneq))
    · obtain rfl : lo = hi := by omega
      -- the bounds have met strictly inside the array
      have hpos : 0 < lo := by
        by_contra hzero
        exact absurd (habove 0 (by omega) hne) (not_lt.mpr hfirst)
      have hlt : lo < ids.length := by
        by_contra hge
        exact absurd (hbelow (ids.length - 1) (by omega)) (not_lt.mpr hlast)
      have habove' : itm ≤ ids.getD lo 0 := (habove lo le_rfl hlt).le
      rw [if_pos ⟨rfl, hpos, hbelow (lo - 1) (by omega), habove'⟩]
      exact ⟨lo, rfl, hlt.le, hbelow, fun i hi hilen => (habove i hi hilen).le⟩

/-- The search finds the first ID that is not below the one searched for. -/
theorem bisectLeftSortedIds_spec (hs : ids.Pairwise (· < ·)) (itm : ℕ) :
    ∃ k, bisectLeftSortedIds itm ids = some k ∧ LeastUpper itm ids k := by
  unfold bisectLeftSortedIds
  split
  · exact ⟨0, rfl, Nat.zero_le _, fun i hi => absurd hi (Nat.not_lt_zero i), fun i _ hi => by omega⟩
  · split
    · rename_i hprepend
      refine ⟨0, rfl, Nat.zero_le _, fun i hi => absurd hi (Nat.not_lt_zero i), ?_⟩
      intro i _ hi
      exact hprepend.le.trans (getD_le_getD hs (Nat.zero_le i) hi)
    · rename_i hfirst
      split
      · rename_i happend
        refine ⟨ids.length, rfl, le_rfl, fun i hi => ?_, fun i hi hlt => by omega⟩
        exact lt_of_le_of_lt (getD_le_getD hs (by omega) (by omega)) happend
      · rename_i hlast
        exact bisectLoop_spec hs (not_lt.mp hfirst) (not_lt.mp hlast) (by omega)
          (Nat.zero_le _) le_rfl (fun i hi => absurd hi (Nat.not_lt_zero i))
          (fun i hi hlt => by omega) (by omega)

theorem LeastUpper.position {k : ℕ} (h : LeastUpper itm ids k)
    (hne : ¬(k < ids.length ∧ ids.getD k 0 = itm)) (hs : ids.Pairwise (· < ·)) :
    Splits id ids itm k := by
  obtain ⟨hk, hbelow, habove⟩ := h
  constructor
  · intro x hx
    obtain ⟨i, hi, rfl⟩ := mem_take_iff_getElem.mp hx
    have hlt : i < ids.length := by omega
    have := hbelow i (by omega)
    rwa [getD_eq_getElem _ _ hlt] at this
  · intro x hx
    obtain ⟨i, hi, rfl⟩ := mem_drop_iff_getElem.mp hx
    have hklen : k < ids.length := by omega
    have hfirst : itm < ids.getD k 0 :=
      lt_of_le_of_ne (habove k le_rfl hklen) fun h => hne ⟨hklen, h.symm⟩
    have hthere := getD_le_getD hs (Nat.le_add_right k i) (by omega)
    rw [getD_eq_getElem _ _ (by omega : k + i < ids.length)] at hthere
    exact lt_of_lt_of_le hfirst hthere

/-- Writing an ID at its place keeps the order and adds that ID. -/
theorem insertIdAt_spec (hs : ids.Pairwise (· < ·)) {k : ℕ} (h : LeastUpper itm ids k) :
    (insertIdAt ids itm k).Pairwise (· < ·) ∧
      (∀ x, x ∈ insertIdAt ids itm k ↔ x = itm ∨ x ∈ ids) ∧
      (insertIdAt ids itm k).length ≤ ids.length + 1 := by
  by_cases hthere : k < ids.length ∧ ids.getD k 0 = itm
  · have hmem : itm ∈ ids := by
      rw [← hthere.2, getD_eq_getElem _ _ hthere.1]
      exact getElem_mem hthere.1
    have heq : insertIdAt ids itm k = ids := by
      rw [insertIdAt, if_neg (by omega), if_pos hthere.2]
    rw [heq]
    refine ⟨hs, fun x => ?_, by omega⟩
    exact ⟨.inr, fun hx => hx.elim (fun hx => hx ▸ hmem) fun hx => hx⟩
  · have hsplit : Splits id ids itm k := h.position hthere hs
    have heq : insertIdAt ids itm k = upsertAt ids id itm (false, k) := by
      unfold insertIdAt upsertAt
      split
      · rename_i hend
        simp [hend]
      · rename_i hend
        rw [if_neg fun hk => hthere ⟨lt_of_le_of_ne h.1 hend, hk⟩]
    rw [heq]
    refine ⟨?_, fun x => ?_, length_upsertAt_le _ _ _ _⟩
    · exact upsertAt_ascending hs (k := itm) (p := (false, k)) hsplit (fun _ => rfl) rfl
    · rw [upsertAt, mem_append, mem_cons, or_left_comm, ← mem_append, take_append_drop]

end Bisect

/-! ## §6 The Table As A Map -/

/-- The array of IDs of a state: ascending, not empty, and inside its allocated size. -/
structure ValidBucket (b : EndidInfoBucket) : Prop where
  sorted : b.ids.Pairwise (· < ·)
  ne_nil : b.ids ≠ []
  fits : b.ids.length ≤ b.ceil
  ceil : ∃ k ≤ 31, b.ceil = 2 ^ k

/-- The table stands for the map `t` from states to buckets.  Its counter of used buckets may be too
large. -/
structure Stores (ei : EndidInfo) (t : ℕ → Option EndidInfoBucket) : Prop where
  table : Represents EndidInfoBucket.state hashOf ei.buckets t
  counters : ei.counters.Valid
  valid : ∀ {s b}, t s = some b → ValidBucket b

theorem isPowerOf2_two_pow (k : ℕ) : isPowerOf2 (2 ^ k) = true := by
  rw [isPowerOf2, beq_iff_eq, Nat.and_comm, Nat.and_two_pow_sub_one_eq_mod, Nat.mod_self]

theorem stores_fsmEndidInit : Stores fsmEndidInit fun _ => none where
  table := Represents.replicate _ _ _
  counters := ⟨⟨1, by decide, by decide⟩, by decide, by decide⟩
  valid h := nomatch h

namespace Stores

variable {ei : EndidInfo} {t : ℕ → Option EndidInfoBucket}

theorem isPowerOf2 (h : Stores ei t) : isPowerOf2 ei.bucketCount = true := by
  obtain ⟨k, -, hk⟩ := h.counters.count
  have hk : ei.bucketCount = 2 ^ (k + 1) := hk
  rw [hk]
  exact isPowerOf2_two_pow (k + 1)

/-- The counters, without the record around them. -/
theorem bounds (h : Stores ei t) : 2 ≤ ei.bucketCount ∧
    usedBuckets ei.buckets ≤ ei.bucketsUsed ∧ ei.bucketsUsed ≤ ei.bucketCount / 2 :=
  ⟨h.counters.grow_iff.2.2.1, h.counters.occupied, h.counters.half⟩

theorem room (h : Stores ei t) : usedBuckets ei.buckets < ei.buckets.length := by
  obtain ⟨htwo, hused, hhalf⟩ := h.bounds
  unfold EndidInfo.bucketCount at htwo hhalf
  omega

/-- Other buckets, as many as before, of which no more are in use than are counted. -/
theorem rebuild (h : Stores ei t) {buckets : List (Option EndidInfoBucket)} {used : ℕ}
    {t' : ℕ → Option EndidInfoBucket} (htable : Represents EndidInfoBucket.state hashOf buckets t')
    (hlen : buckets.length = ei.bucketCount) (hused : usedBuckets buckets ≤ used)
    (hhalf : used ≤ ei.bucketCount / 2) (hvalid : ∀ {s b}, t' s = some b → ValidBucket b) :
    Stores { buckets := buckets, bucketsUsed := used } t' := by
  obtain ⟨k, hk, hcount⟩ := h.counters.count
  rw [← hlen] at hhalf
  exact ⟨htable, ⟨⟨k, hk, hlen.trans hcount⟩, hused, hhalf⟩, hvalid⟩

theorem state_eq (h : Stores ei t) (hb : t s = some b) : b.state = s :=
  (h.table.eq_some_iff.mp hb).2

/-- **Growing** fails unless the number of buckets can be doubled and the counter is right. -/
theorem growEndidBuckets_eq_none (hnot : ¬ (ei.bucketCount < 2 * ei.bucketCount % 2 ^ 32 ∧
    usedBuckets ei.buckets = ei.bucketsUsed)) : EndidTable.growEndidBuckets ei = none := by
  rw [not_and_or] at hnot
  rcases hnot with hcount | hused
  · rw [EndidTable.growEndidBuckets, guard, if_neg hcount]
    rfl
  · rw [Option.eq_none_iff_forall_ne_some]
    intro ei' hei'
    simp [EndidTable.growEndidBuckets, guard, hused] at hei'

/-- **Growing** doubles the number of buckets and keeps the map. -/
theorem growEndidBuckets (h : Stores ei t) (hlt : ei.bucketCount < 2 ^ 31)
    (hexact : usedBuckets ei.buckets = ei.bucketsUsed) :
    ∃ ei', EndidTable.growEndidBuckets ei = some ei' ∧ Stores ei' t ∧
      ei'.bucketCount = 2 * ei.bucketCount ∧ ei'.bucketsUsed = ei.bucketsUsed ∧
      usedBuckets ei'.buckets = ei.bucketsUsed := by
  obtain ⟨k, -, hk⟩ := h.counters.count
  have hk : ei.bucketCount = 2 ^ (k + 1) := hk
  obtain ⟨htwo, -, hhalf⟩ := h.bounds
  have hcount : 2 * ei.bucketCount = 2 ^ (k + 2) := by
    rw [hk, ← Nat.pow_succ']
  have hmod : 2 * ei.bucketCount % 2 ^ 32 = 2 * ei.bucketCount := by omega
  obtain ⟨new, hnew, htable, hlen, hused⟩ := Represents.build _ hashOf
    (entries ei.buckets) h.table.entries_pairwise (n := 2 * ei.bucketCount) (by simp; omega)
  rw [h.table.find?_entries] at htable
  rw [length_entries, hexact] at hused
  have hk' : k + 1 < 31 := (Nat.pow_lt_pow_iff_right (by decide)).mp (hk ▸ hlt)
  refine ⟨{ ei with buckets := new }, ?_,
    ⟨htable, ⟨⟨k + 1, by omega, hlen.trans hcount⟩, hused.le, ?_⟩, h.valid⟩, hlen, rfl, hused⟩
  · have hpow : EndidTable.isPowerOf2 (2 * ei.bucketCount) = true := by
      rw [hcount]
      exact isPowerOf2_two_pow (k + 2)
    have hgrow : ei.bucketCount < 2 * ei.bucketCount := by omega
    rw [EndidTable.growEndidBuckets, hmod]
    simp [guard, hgrow, hpow, hnew, hexact]
  · show ei.bucketsUsed ≤ new.length / 2
    omega

end Stores

/-- What a search for the bucket of `s` gives: a table with the same map, the bucket of `s` if
it has one, else an empty bucket that is the one to fill. -/
structure Found (t : ℕ → Option EndidInfoBucket) (s : ℕ) (ei : EndidInfo) (j : ℕ) : Prop where
  stores : Stores ei t
  bucket : bucketAt ei.buckets j = t s
  place : t s = none → ∀ b, Lib.place ei.buckets (hashOf s) b = ei.buckets.set j (some b)
  room : t s = none → ei.bucketsUsed + 1 ≤ ei.bucketCount / 2

section Find

variable {ei : EndidInfo} {t : ℕ → Option EndidInfoBucket}

/-- One pass of the loop: it grows the table or it is done. -/
theorem findBucketFrom_pass (h : Stores ei t) (s grows : ℕ) :
    (∃ j, findBucketFrom grows ei s = some (ei, j) ∧ Found t s ei j) ∨
      (t s = none ∧ ei.bucketsUsed = ei.bucketCount / 2 ∧ findBucketFrom grows ei s =
        match grows with
        | 0 => none
        | grows + 1 => (growEndidBuckets ei).bind fun ei => findBucketFrom grows ei s) := by
  obtain ⟨j, -, hprobe, hbucket, hplace⟩ := h.table.exists_probe_key h.room s
  by_cases hfull : bucketAt ei.buckets j = none ∧ ei.bucketsUsed = ei.bucketCount / 2
  · refine .inr ⟨hbucket.symm.trans hfull.1, hfull.2, ?_⟩
    cases grows <;> simp [findBucketFrom, guard, h.isPowerOf2, hprobe, hfull]
  · refine .inl ⟨j, ?_, h, hbucket, hplace, fun hnone => ?_⟩
    · cases grows <;> simp [findBucketFrom, guard, h.isPowerOf2, hprobe, hfull]
    · -- an empty bucket in a table that is not half full
      have hne : ei.bucketsUsed ≠ ei.bucketCount / 2 :=
        fun heq => hfull ⟨hbucket.trans hnone, heq⟩
      have hhalf := h.bounds.2.2
      omega

/-- **Searching** for the bucket of a state that has one finds it in the table as it is. -/
theorem endidFindBucket_of_some (h : Stores ei t) (hs : t s ≠ none) :
    ∃ j, endidFindBucket ei s = some (ei, j) ∧ Found t s ei j := by
  rcases findBucketFrom_pass h s 1 with hfound | ⟨hnone, -⟩
  · exact hfound
  · exact absurd hnone hs

/-- **Searching** for a bucket for a new state goes as the counters say; the table grows at most
once. -/
theorem counters_endidFindBucket (h : Stores ei t) (hs : t s = none) :
    (endidFindBucket ei s = none ∧ ei.counters.newBucket = none) ∨
      ∃ ei' j, endidFindBucket ei s = some (ei', j) ∧ Found t s ei' j ∧ ei.counters.newBucket =
        some ⟨ei'.bucketCount, ei'.bucketsUsed + 1, usedBuckets ei'.buckets + 1⟩ := by
  unfold EndidCounters.newBucket EndidInfo.counters
  dsimp only
  rcases findBucketFrom_pass h s 1 with ⟨j, hj, hfound⟩ | ⟨-, hfull, hgrow⟩
  · have hnot : ei.bucketsUsed ≠ ei.bucketCount / 2 := by
      have := hfound.room hs
      omega
    exact .inr ⟨ei, j, hj, hfound, if_neg hnot⟩
  · rw [if_pos hfull]
    by_cases hok : ei.bucketCount < 2 * ei.bucketCount % 2 ^ 32 ∧
        usedBuckets ei.buckets = ei.bucketsUsed
    · have hlt : ei.bucketCount < 2 ^ 31 := h.counters.grow_iff.1.mp hok.1
      obtain ⟨ei', hei', hstores, hcount, hused, hoccupied⟩ := h.growEndidBuckets hlt hok.2
      have htwo := h.bounds.1
      rw [hei'] at hgrow
      rcases findBucketFrom_pass hstores s 0 with ⟨j, hj, hfound⟩ | ⟨-, hfull', -⟩
      · refine .inr ⟨ei', j, hgrow.trans hj, hfound, ?_⟩
        rw [if_pos hok, hcount, hused, hoccupied, hok.2, Nat.mod_eq_of_lt (by omega)]
      · omega
    · rw [Stores.growEndidBuckets_eq_none hok] at hgrow
      exact .inl ⟨hgrow, if_neg hok⟩

end Find

/-! ## §7 Setting IDs -/

namespace Found

variable {ei : EndidInfo} {t : ℕ → Option EndidInfoBucket} {s j : ℕ} {b : EndidInfoBucket}

theorem valid_update (h : Found t s ei j) (hb : ValidBucket b) {s' : ℕ} {b' : EndidInfoBucket}
    (hb' : update t s (some b) s' = some b') : ValidBucket b' := by
  rw [update_apply] at hb'
  split at hb'
  · exact Option.some.inj hb' ▸ hb
  · exact h.stores.valid hb'

theorem insert (h : Found t s ei j) (hnone : t s = none) (hb : ValidBucket b)
    (hstate : b.state = s) :
    Stores { buckets := ei.buckets.set j (some b), bucketsUsed := ei.bucketsUsed + 1 }
      (update t s (some b)) := by
  subst hstate
  obtain ⟨htable, hlen, hused⟩ := h.stores.table.place hnone h.stores.room
  rw [h.place hnone] at htable hlen hused
  have hle := h.stores.bounds.2.1
  exact h.stores.rebuild htable hlen (by omega) (h.room hnone) (h.valid_update hb)

theorem counters_insert (h : Found t s ei j) (hnone : t s = none) (hstate : b.state = s) :
    EndidInfo.counters
        { buckets := ei.buckets.set j (some b), bucketsUsed := ei.bucketsUsed + 1 } =
      ⟨ei.bucketCount, ei.bucketsUsed + 1, usedBuckets ei.buckets + 1⟩ := by
  subst hstate
  obtain ⟨-, -, hused⟩ := h.stores.table.place hnone h.stores.room
  rw [h.place hnone] at hused
  simp [EndidInfo.counters, EndidInfo.bucketCount, hused]

/-- Overwriting the bucket of the state. -/
theorem replace (h : Found t s ei j) {b₀ : EndidInfoBucket} (hsome : t s = some b₀)
    (hb : ValidBucket b) (hstate : b.state = s) :
    Stores { ei with buckets := ei.buckets.set j (some b) } (update t s (some b)) ∧
      usedBuckets (ei.buckets.set j (some b)) = usedBuckets ei.buckets := by
  subst hstate
  obtain ⟨htable, hused⟩ := h.stores.table.set (h.bucket.trans hsome)
    (h.stores.state_eq hsome).symm
  obtain ⟨-, hle, hhalf⟩ := h.stores.bounds
  exact ⟨h.stores.rebuild htable length_set (hused ▸ hle) hhalf (h.valid_update hb), hused⟩

end Found

section Set

variable {ei : EndidInfo} {t : ℕ → Option EndidInfoBucket}

/-- The IDs of a state. -/
def idsOf (t : ℕ → Option EndidInfoBucket) (s : ℕ) : Finset ℕ :=
  (t s).elim ∅ fun b => b.ids.toFinset

theorem idsOf_update (t : ℕ → Option EndidInfoBucket) (s : ℕ) (b : EndidInfoBucket) :
    idsOf (update t s (some b)) = update (idsOf t) s b.ids.toFinset := by
  funext s'
  unfold idsOf
  rw [update_apply, update_apply]
  split <;> rfl

/-- The IDs after a write to the bucket of a state. -/
theorem idsOf_write {new : Finset ℕ} (hids : b.ids = ids) (hnew : ∀ x, x ∈ ids ↔ x ∈ new) :
    idsOf (update t s (some b)) = update (idsOf t) s new := by
  rw [idsOf_update, hids]
  congr 1
  apply Finset.ext
  intro x
  rw [mem_toFinset, hnew]

/-- A write to the bucket of a state: the map afterwards, and the counters, which change only for a
new state. -/
structure Written (ei : EndidInfo) (t : ℕ → Option EndidInfoBucket) (s : ℕ) (new : Finset ℕ)
    (ei' : EndidInfo) : Prop where
  stores : ∃ t', Stores ei' t' ∧ idsOf t' = update (idsOf t) s new
  counters : if t s = none then ei.counters.newBucket = some ei'.counters
    else ei'.counters = ei.counters

/-- **`fsm_endid_set`** for a new state fails if the counters say so, and else gives it one ID. -/
theorem fsmEndidSet_new (h : Stores ei t) (hs : t s = none) (id : ℕ) :
    (fsmEndidSet ei s id = none ∧ ei.counters.newBucket = none) ∨
      ∃ ei', fsmEndidSet ei s id = some ei' ∧ Written ei t s (insert id (idsOf t s)) ei' := by
  rcases counters_endidFindBucket h hs with ⟨hnone, hcounters⟩ | ⟨ei', j, hfind, hfound, hcounters⟩
  · exact .inl ⟨by simp [fsmEndidSet, hnone], hcounters⟩
  · have hbucket := hfound.bucket.trans hs
    let b : EndidInfoBucket := { state := s, ids := [id], ceil := defBucketIdCount }
    have hset : fsmEndidSet ei s id = some
        { buckets := ei'.buckets.set j (some b), bucketsUsed := ei'.bucketsUsed + 1 } := by
      simp [fsmEndidSet, hfind, hbucket, b]
    have hb : ValidBucket b :=
      ⟨pairwise_singleton _ _, cons_ne_nil _ _, Nat.le_of_ble_eq_true rfl, 4, by decide, rfl⟩
    refine .inr ⟨_, hset, ⟨_, hfound.insert hs hb rfl, idsOf_write rfl fun x => ?_⟩, ?_⟩
    · simp [idsOf, hs, b]
    · rw [if_pos hs, hcounters, hfound.counters_insert hs rfl]

/-- **`fsm_endid_set`** adds one ID to a state that has some, as long as their number is below
`2 ^ 31`. -/
theorem fsmEndidSet_old (h : Stores ei t) (hs : t s = some b) (hlt : b.ids.length < 2 ^ 31)
    (id : ℕ) :
    ∃ ei', fsmEndidSet ei s id = some ei' ∧ Written ei t s (insert id (idsOf t s)) ei' := by
  obtain ⟨j, hfind, hfound⟩ := endidFindBucket_of_some h (s := s) (by simp [hs])
  have hbucket := hfound.bucket.trans hs
  have hb : ValidBucket b := h.valid hs
  have hstate : b.state = s := h.state_eq hs
  obtain ⟨k, hk, hleast⟩ := bisectLeftSortedIds_spec hb.sorted id
  obtain ⟨hsorted, hmem, hlen⟩ := insertIdAt_spec hb.sorted hleast
  have hpos : 0 < b.ids.length := length_pos_of_ne_nil hb.ne_nil
  have hfits := hb.fits
  obtain ⟨m, hm, hpow⟩ := hb.ceil
  set ceil := if b.ids.length = b.ceil then 2 * b.ceil % 2 ^ 32 else b.ceil with hceil
  have hroom : b.ids.length < ceil := by
    rw [hceil]
    split <;> omega
  -- below `2 ^ 31` IDs the doubled capacity does not wrap
  have hceil' : ∃ m ≤ 31, ceil = 2 ^ m := by
    rw [hceil]
    split
    · rename_i hfull
      rw [hfull, hpow] at hlt
      have hm' : m < 31 := (Nat.pow_lt_pow_iff_right (by decide)).mp hlt
      refine ⟨m + 1, hm', ?_⟩
      rw [hpow, ← Nat.pow_succ', Nat.mod_eq_of_lt]
      exact Nat.pow_lt_pow_right (by decide) (by omega)
    · exact ⟨m, hm, hpow⟩
  let b' : EndidInfoBucket := { b with ids := insertIdAt b.ids id k, ceil := ceil }
  have hset : fsmEndidSet ei s id = some { ei with buckets := ei.buckets.set j (some b') } := by
    rw [fsmEndidSet, hfind]
    simp only [Option.bind_eq_bind, Option.bind_some, hbucket, ← hceil]
    simp [guard, hstate, hroom, hk, hleast.1, b']
  have hthere : id ∈ b'.ids := (hmem id).mpr (.inl rfl)
  have hb' : ValidBucket b' := ⟨hsorted, ne_nil_of_mem hthere, hlen.trans hroom, hceil'⟩
  obtain ⟨hstores, hused⟩ := hfound.replace hs hb' hstate
  refine ⟨_, hset, ⟨_, hstores, idsOf_write rfl fun x => ?_⟩, ?_⟩
  · simp [idsOf, hs, hmem, b']
  · simp [hs, EndidInfo.counters, EndidInfo.bucketCount, hused]

theorem length_sortDedup_le (ids : List ℕ) : (sortDedup ids).length ≤ ids.length := by
  exact (dedup_sublist _).length_le.trans_eq (length_insertionSort _ _)

/-- A bucket with IDs that were sorted and freed of repeats. -/
theorem validBucket_sortDedup (hne : ids ≠ []) (s : ℕ) {ceil : ℕ} (hceil : ids.length ≤ ceil)
    (hpow : ∃ k ≤ 31, ceil = 2 ^ k) :
    ValidBucket { state := s, ids := sortDedup ids, ceil := ceil } := by
  refine ⟨sortDedup_pairwise_lt ids, ?_, (length_sortDedup_le ids).trans hceil, hpow⟩
  obtain ⟨id, hid⟩ := exists_mem_of_ne_nil ids hne
  exact ne_nil_of_mem (mem_sortDedup.mpr hid)

/-- The IDs of a state after a bulk operation. -/
def bulkIds (old : Finset ℕ) (ids : List ℕ) : EndidBulkOp → Finset ℕ
  | .append => old ∪ ids.toFinset
  | .replace => ids.toFinset

/-- The size of an array for up to `2 ^ 31` IDs, doubled from a power of two. -/
theorem doubleUntil_mod {n k : ℕ} (hn : n ≤ 2 ^ 31) (hk : k ≤ 31) :
    n ≤ doubleUntil n n (2 ^ k) % 2 ^ 32 ∧ ∃ m ≤ 31, doubleUntil n n (2 ^ k) % 2 ^ 32 = 2 ^ m := by
  obtain ⟨m, hm⟩ := exists_doubleUntil_eq_two_pow n n k
  have hle : doubleUntil n n (2 ^ k) ≤ 2 ^ 31 := doubleUntil_le_two_pow n hk hn
  have hge : n ≤ doubleUntil n n (2 ^ k) :=
    le_doubleUntil (Nat.two_pow_pos k) (Nat.le_add_left _ _)
  rw [Nat.mod_eq_of_lt (by omega)]
  exact ⟨hge, m, (Nat.pow_le_pow_iff_right (by decide)).mp (hm ▸ hle), hm⟩

/-- **`fsm_endid_set_bulk`** for a new state fails if the counters say so, and else gives it the
IDs, if they are at most `2 ^ 31`. -/
theorem fsmEndidSetBulk_new (h : Stores ei t) (hs : t s = none) (hne : ids ≠ [])
    (hlen : ids.length ≤ 2 ^ 31) (op : EndidBulkOp) :
    (fsmEndidSetBulk ei s ids op = none ∧ ei.counters.newBucket = none) ∨
      ∃ ei', fsmEndidSetBulk ei s ids op = some ei' ∧
        Written ei t s (bulkIds (idsOf t s) ids op) ei' := by
  rcases counters_endidFindBucket h hs with ⟨hnone, hcounters⟩ | ⟨ei', j, hfind, hfound, hcounters⟩
  · exact .inl ⟨by simp [fsmEndidSetBulk, hnone], hcounters⟩
  · have hbucket := hfound.bucket.trans hs
    obtain ⟨hceil, hpow⟩ := doubleUntil_mod hlen (k := 4) (by decide)
    have htake : ids.take (max 1 (ids.length % 2 ^ 32)) = ids := by
      have := length_pos_of_ne_nil hne
      rw [Nat.mod_eq_of_lt (by omega), Nat.max_eq_right this, take_length]
    let ceil := doubleUntil ids.length ids.length (2 ^ 4) % 2 ^ 32
    let b : EndidInfoBucket := { state := s, ids := sortDedup ids, ceil := ceil }
    have hset : fsmEndidSetBulk ei s ids op = some
        { buckets := ei'.buckets.set j (some b), bucketsUsed := ei'.bucketsUsed + 1 } := by
      rw [fsmEndidSetBulk, hfind]
      simp only [Option.bind_eq_bind, Option.bind_some, hbucket, htake]
      rfl
    refine .inr ⟨_, hset, ⟨_, hfound.insert hs (validBucket_sortDedup hne s hceil hpow) rfl,
      idsOf_write rfl fun x => ?_⟩, ?_⟩
    · cases op <;> simp [idsOf, hs, bulkIds, b]
    · rw [if_pos hs, hcounters, hfound.counters_insert hs rfl]

/-- **`fsm_endid_set_bulk`** adds IDs to a state that has some, or replaces them, as long as there
are at most `2 ^ 31` in the array. -/
theorem fsmEndidSetBulk_old (h : Stores ei t) (hs : t s = some b) (hne : ids ≠ [])
    (op : EndidBulkOp)
    (hlen : ids.length + (if op = .replace then [] else b.ids).length ≤ 2 ^ 31) :
    ∃ ei', fsmEndidSetBulk ei s ids op = some ei' ∧
      Written ei t s (bulkIds (idsOf t s) ids op) ei' := by
  obtain ⟨j, hfind, hfound⟩ := endidFindBucket_of_some h (s := s) (by simp [hs])
  have hbucket := hfound.bucket.trans hs
  have hb : ValidBucket b := h.valid hs
  have hstate : b.state = s := h.state_eq hs
  have hpos : 0 < b.ids.length := length_pos_of_ne_nil hb.ne_nil
  have hfits := hb.fits
  set prev := if op = .replace then [] else b.ids with hprev
  set total := ids.length + prev.length with htotal
  obtain ⟨m, hm, hpow⟩ := hb.ceil
  set ceil := if b.ceil < total then doubleUntil total total (2 * b.ceil % 2 ^ 32) % 2 ^ 32
    else b.ceil with hceil
  -- as long as the total fits, doubling ends at a power of two below `2 ^ 32`
  have hroom : total ≤ ceil ∧ ∃ m ≤ 31, ceil = 2 ^ m := by
    rw [hceil]
    split
    · rename_i hgrow
      have hm' : m + 1 ≤ 31 :=
        (Nat.pow_lt_pow_iff_right (by decide)).mp (hpow ▸ hgrow.trans_le hlen)
      have hdouble : 2 * b.ceil % 2 ^ 32 = 2 ^ (m + 1) := by
        rw [hpow, ← Nat.pow_succ', Nat.mod_eq_of_lt]
        exact Nat.pow_lt_pow_right (by decide) (by omega)
      rw [hdouble]
      exact doubleUntil_mod hlen hm'
    · exact ⟨by omega, m, hm, hpow⟩
  let b' : EndidInfoBucket := { b with ids := sortDedup (prev ++ ids), ceil := ceil }
  have hset : fsmEndidSetBulk ei s ids op =
      some { ei with buckets := ei.buckets.set j (some b') } := by
    rw [fsmEndidSetBulk, hfind]
    simp only [Option.bind_eq_bind, Option.bind_some, hbucket, ← hprev, ← htotal, ← hceil]
    simp [guard, hstate, hroom.1, b']
  have hb' : ValidBucket b' := by
    refine validBucket_sortDedup (append_ne_nil_of_right_ne_nil _ hne) b.state ?_ hroom.2
    rw [length_append, add_comm]
    exact hroom.1
  obtain ⟨hstores, hused⟩ := hfound.replace hs hb' hstate
  refine ⟨_, hset, ⟨_, hstores, idsOf_write rfl fun x => ?_⟩, ?_⟩
  · cases op <;> simp [idsOf, hs, bulkIds, hprev, b']
  · simp [hs, EndidInfo.counters, EndidInfo.bucketCount, hused]

end Set

/-! ## §8 Remapping IDs -/

section Remap

variable {ei : EndidInfo} {t : ℕ → Option EndidInfoBucket}

/-- What the loop does to a list of buckets: the remap function sees the states in the order of
their buckets. -/
def remapEntries (r : RemapFun) : r.Env → List EndidInfoBucket → List EndidInfoBucket
  | _, [] => []
  | w, b :: bs =>
    match r.remap w b.state b.ids with
    | (written, ret, w) =>
      { b with ids := sortDedup written } :: if ret then remapEntries r w bs else bs

/-- The IDs of all states after the remap function has been called on the states of a list. -/
def remapAlong (r : RemapFun) : r.Env → List ℕ → (ℕ → Finset ℕ) → ℕ → Finset ℕ
  | _, [], m => m
  | w, s :: order, m =>
    match r.remap w s ((m s).sort (· ≤ ·)) with
    | (written, ret, w) =>
      let m := update m s written.toFinset
      if ret then remapAlong r w order m else m

theorem remapEntries_cons {r : RemapFun} {w w' : r.Env} {written : List ℕ} {ret : Bool}
    (hr : r.remap w b.state b.ids = (written, ret, w')) (bs : List EndidInfoBucket) :
    remapEntries r w (b :: bs) =
      { b with ids := sortDedup written } :: if ret then remapEntries r w' bs else bs := by
  simp [remapEntries, hr]

theorem remapAlong_cons {r : RemapFun} {w w' : r.Env} {m : ℕ → Finset ℕ} {written : List ℕ}
    {ret : Bool} (hr : r.remap w s ((m s).sort (· ≤ ·)) = (written, ret, w')) (order : List ℕ) :
    remapAlong r w (s :: order) m =
      if ret then remapAlong r w' order (update m s written.toFinset)
      else update m s written.toFinset := by
  simp only [remapAlong, hr]

theorem mapBuckets_spec (r : RemapFun) (bs : List (Option EndidInfoBucket)) (w : r.Env)
    (hbs : ∀ b ∈ entries bs, ValidBucket b) :
    ∃ bs' ret, mapBuckets r w bs = some (bs', ret) ∧
      bs'.map (Option.map EndidInfoBucket.state) = bs.map (Option.map EndidInfoBucket.state) ∧
      entries bs' = remapEntries r w (entries bs) := by
  induction bs generalizing w with
  | nil => exact ⟨[], true, rfl, rfl, rfl⟩
  | cons b bs ih =>
    cases b with
    | none =>
      obtain ⟨bs', ret, hbs', hstates, hentries⟩ := ih w hbs
      exact ⟨none :: bs', ret, by simp [mapBuckets, hbs'], by simp [hstates],
        by simpa [entries] using hentries⟩
    | some b =>
      have hb : ValidBucket b := hbs b (by simp [entries])
      obtain ⟨hne, hle⟩ := r.writes w b.state b.ids hb.ne_nil
      have hpos : 0 < (r.remap w b.state b.ids).1.length := length_pos_of_ne_nil hne
      obtain ⟨bs', ret, hbs', hstates, hentries⟩ := ih (r.remap w b.state b.ids).2.2
        fun b' hb' => hbs b' (by
          exact mem_cons_of_mem b hb')
      have hcons : entries (some b :: bs) = b :: entries bs := rfl
      -- a remap function that returns 0 leaves the buckets behind as they are
      cases hret : (r.remap w b.state b.ids).2.1 with
      | true =>
        refine ⟨_, ret, by simp [mapBuckets, guard, hle, hpos, hret, hbs']; rfl, ?_, ?_⟩
        · simp [hstates]
        · rw [hcons, remapEntries]
          simp [entries, hret]
          exact hentries
      | false =>
        refine ⟨_, false, by simp [mapBuckets, guard, hle, hpos, hret]; rfl, ?_, ?_⟩
        · simp
        · rw [hcons, remapEntries]
          simp [entries, hret]

theorem idsOf_eq (h : Stores ei t) (hb : b ∈ entries ei.buckets) :
    idsOf t b.state = b.ids.toFinset := by
  have hsome : t b.state = some b := h.table.eq_some_iff.mpr ⟨hb, rfl⟩
  rw [idsOf, hsome]
  rfl

theorem idsOf_eq_empty_iff (h : Stores ei t) :
    idsOf t s = ∅ ↔ s ∉ (entries ei.buckets).map EndidInfoBucket.state := by
  rw [idsOf, mem_map]
  cases hs : t s with
  | none =>
    refine iff_of_true rfl fun ⟨b, hb, hbs⟩ => ?_
    rw [h.table.eq_some_iff.mpr ⟨hb, hbs⟩] at hs
    cases hs
  | some b =>
    have hmem := h.table.eq_some_iff.mp hs
    refine iff_of_false (fun hnil => (h.valid hs).ne_nil ?_) fun hno => hno ⟨b, hmem⟩
    simpa using hnil

theorem ValidBucket.sort_ids (hb : ValidBucket b) : b.ids.toFinset.sort (· ≤ ·) = b.ids :=
  (toFinset_sort (· ≤ ·) (hb.sorted.imp ne_of_lt)).mpr (hb.sorted.imp le_of_lt)

/-- The states stay, their buckets stay valid, and the IDs become what the remap function makes
of them along the list. -/
theorem remapEntries_spec (r : RemapFun) (bs : List EndidInfoBucket) (w : r.Env)
    (m : ℕ → Finset ℕ) (hbs : ∀ b ∈ bs, ValidBucket b)
    (hstates : (bs.map EndidInfoBucket.state).Nodup)
    (hm : ∀ b ∈ bs, m b.state = b.ids.toFinset) :
    (remapEntries r w bs).map EndidInfoBucket.state = bs.map EndidInfoBucket.state ∧
      (∀ b ∈ remapEntries r w bs, ValidBucket b) ∧
      (∀ b ∈ remapEntries r w bs,
        remapAlong r w (bs.map EndidInfoBucket.state) m b.state = b.ids.toFinset) ∧
      ∀ s ∉ bs.map EndidInfoBucket.state,
        remapAlong r w (bs.map EndidInfoBucket.state) m s = m s := by
  induction bs generalizing w m with
  | nil => exact ⟨rfl, by simp [remapEntries], by simp [remapEntries], fun _ _ => rfl⟩
  | cons b bs ih =>
    rw [map_cons, nodup_cons] at hstates
    obtain ⟨hnot, hstates⟩ := hstates
    have hb : ValidBucket b := hbs b mem_cons_self
    have hsort : (m b.state).sort (· ≤ ·) = b.ids := by
      rw [hm b mem_cons_self]
      exact hb.sort_ids
    obtain ⟨hne, hle⟩ := r.writes w b.state b.ids hb.ne_nil
    rcases hr : r.remap w b.state b.ids with ⟨written, ret, w'⟩
    rw [hr] at hne hle
    rw [map_cons, remapEntries_cons hr, remapAlong_cons (hsort.symm ▸ hr)]
    -- the bucket just written, and the IDs it stands for
    have hb' : ValidBucket { b with ids := sortDedup written } :=
      validBucket_sortDedup hne b.state (hle.trans hb.fits) hb.ceil
    have hwritten : written.toFinset = (sortDedup written).toFinset := by
      apply Finset.ext
      simp
    set m' := update m b.state written.toFinset with hm'
    have hself : m' b.state = (sortDedup written).toFinset := by
      rw [hm', update_self, hwritten]
    have hother : ∀ {s}, s ≠ b.state → m' s = m s := fun hs => update_of_ne hs _ _
    have hrest : ∀ b' ∈ bs, m' b'.state = b'.ids.toFinset := by
      intro b' hb'
      rw [hother fun heq => hnot (heq ▸ mem_map_of_mem hb')]
      exact hm b' (mem_cons_of_mem b hb')
    have hvalid : ∀ b' ∈ bs, ValidBucket b' := fun b' hb' => hbs b' (mem_cons_of_mem b hb')
    cases ret with
    | true =>
      obtain ⟨ih₁, ih₂, ih₃, ih₄⟩ := ih w' m' hvalid hstates hrest
      refine ⟨by simpa using ih₁, ?_, ?_, ?_⟩
      · simpa using ⟨hb', ih₂⟩
      · simpa using ⟨(ih₄ b.state hnot).trans hself, ih₃⟩
      · intro s hs
        rw [mem_cons, not_or] at hs
        exact (ih₄ s hs.2).trans (hother hs.1)
    | false =>
      refine ⟨rfl, ?_, ?_, ?_⟩
      · simpa using ⟨hb', hvalid⟩
      · simpa using ⟨hself, hrest⟩
      · intro s hs
        rw [mem_cons, not_or] at hs
        exact hother hs.1

/-- The states of the buckets in use, in their order. -/
def statesOf (ei : EndidInfo) : List ℕ := (entries ei.buckets).map EndidInfoBucket.state

theorem Stores.nodup_statesOf (h : Stores ei t) : (statesOf ei).Nodup :=
  pairwise_map.mpr h.table.entries_pairwise

/-- **`fsm_mapendids`** calls the remap function on every state that has IDs. -/
theorem fsmMapendids_spec (h : Stores ei t) (r : RemapFun) :
    ∃ ei' ret, fsmMapendids ei r = some (ei', ret) ∧ ei'.counters = ei.counters ∧
      ∃ t', Stores ei' t' ∧ idsOf t' = remapAlong r r.env (statesOf ei) (idsOf t) := by
  have hvalid : ∀ b ∈ entries ei.buckets, ValidBucket b := fun b hb =>
    h.valid (h.table.eq_some_iff.mpr ⟨hb, rfl⟩)
  obtain ⟨bs', ret, hmap, hkeys, hentries⟩ := mapBuckets_spec r ei.buckets r.env hvalid
  obtain ⟨hstates, hvalid', hids, hother⟩ := remapEntries_spec r (entries ei.buckets) r.env
    (idsOf t) hvalid h.nodup_statesOf fun b hb => idsOf_eq h hb
  rw [← hentries] at hstates hvalid' hids
  -- the keys do not change, so the probe sequences stay right
  have hpairwise : (entries bs').Pairwise fun a b => a.state ≠ b.state := by
    rw [← pairwise_map (R := (· ≠ ·)), hstates]
    exact h.nodup_statesOf
  obtain ⟨htable, hused⟩ := h.table.of_keys hkeys
    (fun s => (entries bs').find? fun b => b.state = s)
    (find?_key_eq_some_iff hpairwise)
  have hlen : bs'.length = ei.buckets.length := by
    simpa using congrArg List.length hkeys
  obtain ⟨-, hle, hhalf⟩ := h.bounds
  have hstores := h.rebuild htable hlen (hused ▸ hle) hhalf fun hb =>
    hvalid' _ (mem_of_find?_eq_some hb)
  refine ⟨_, ret, by simp [fsmMapendids, hmap], ?_, _, hstores, ?_⟩
  · rw [EndidInfo.counters, EndidInfo.counters, EndidInfo.bucketCount, hlen, hused]
    rfl
  funext s
  by_cases hs : s ∈ statesOf ei
  · rw [statesOf, ← hstates, mem_map] at hs
    obtain ⟨b, hb, rfl⟩ := hs
    rw [idsOf_eq hstores hb, statesOf, hids b hb]
  · have hempty := (idsOf_eq_empty_iff hstores (s := s)).mpr (by
      rwa [hstates])
    rw [hempty, statesOf, hother s hs, (idsOf_eq_empty_iff h).mpr hs]

/-- The IDs of a state after the shift.  An ID is below 2 ^ 32, so nothing changes for a delta
of zero. -/
def shiftIds (delta : ℤ) (ids : Finset ℕ) : Finset ℕ :=
  if delta = 0 then ids else ids.image (incrId delta)

theorem remapAlong_incrRemap (delta : ℤ) {order : List ℕ} (hnodup : order.Nodup)
    (m : ℕ → Finset ℕ) (s : ℕ) :
    remapAlong (incrRemap delta) (incrRemap delta).env order m s =
      if s ∈ order then (m s).image (incrId delta) else m s := by
  induction order generalizing m with
  | nil => rfl
  | cons s₀ order ih =>
    obtain ⟨hnot, hnodup⟩ := nodup_cons.mp hnodup
    have hwritten : (((m s₀).sort (· ≤ ·)).map (incrId delta)).toFinset =
        (m s₀).image (incrId delta) := by
      apply Finset.ext
      simp
    have hr : (incrRemap delta).remap (incrRemap delta).env s₀ ((m s₀).sort (· ≤ ·)) =
        (((m s₀).sort (· ≤ ·)).map (incrId delta), true, (incrRemap delta).env) := rfl
    rw [remapAlong_cons hr, if_pos rfl, hwritten, ih hnodup]
    by_cases hs : s = s₀
    · rw [hs, if_neg hnot, update_self, if_pos mem_cons_self]
    · simp [hs]

/-- **`fsm_increndids`** shifts the IDs of all states. -/
theorem fsmIncrendids_spec (h : Stores ei t) (delta : ℤ) :
    ∃ ei', fsmIncrendids ei delta = some ei' ∧ ei'.counters = ei.counters ∧
      ∃ t', Stores ei' t' ∧ idsOf t' = fun s => shiftIds delta (idsOf t s) := by
  unfold fsmIncrendids shiftIds
  split
  · exact ⟨ei, rfl, rfl, t, h, rfl⟩
  · obtain ⟨ei', ret, hmap, hcounters, t', ht', hids⟩ := fsmMapendids_spec h (incrRemap delta)
    refine ⟨ei', by rw [hmap]; rfl, hcounters, t', ht', ?_⟩
    rw [hids]
    funext s
    rw [remapAlong_incrRemap delta h.nodup_statesOf]
    split
    · rfl
    · rename_i hs
      rw [(idsOf_eq_empty_iff h).mpr hs, Finset.image_empty]

end Remap

end EndidTable

end Libfsm
