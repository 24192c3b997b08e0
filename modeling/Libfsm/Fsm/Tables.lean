import Libfsm.Lib.Folds
import Libfsm.Lib.SortedArray
import Mathlib.Data.List.AList

/-!
# Metadata Tables

End IDs, eager output IDs and capture actions are not stored on the states: each FSM owns
one table for each kind, keyed by state number (`endids.c`, `eager_output.c`,
`capture.c`).

- `IdTable`: the finite map a table of IDs stands for, with `get` defaulting to no IDs
- `endidSet`, `endidSetBulk`, `endidCopy`: the end ID operations, which keep the IDs of a
  state ascending
- `EndidCounters`: what decides whether the hash table of end IDs can take another state
- `eagerOutputSet`, `eagerOutputCopy`: the eager output operations, which append
- `CaptureInfo`: capture actions and the largest capture ID

The tables of the C code probe linearly; here they are association lists, and `get` is the
only way the rest of the development looks into them.
-/

namespace Libfsm

open Lib

/-! ## §1 Finite Maps From States To IDs -/

/-- A table of IDs by state. -/
abbrev IdTable := AList (fun _ : ℕ => List ℕ)

/-- The IDs of a state; a state without an entry has none. -/
def IdTable.get (m : IdTable) (s : ℕ) : List ℕ := (m.lookup s).getD []

@[simp] theorem IdTable.get_empty (s : ℕ) : IdTable.get ∅ s = [] := by
  simp [IdTable.get]

theorem IdTable.get_insert (m : IdTable) (s t : ℕ) (ids : List ℕ) :
    IdTable.get (m.insert s ids) t = if t = s then ids else m.get t := by
  unfold IdTable.get
  split
  · rename_i h
    rw [h, AList.lookup_insert, Option.getD_some]
  · rename_i h
    rw [AList.lookup_insert_ne h]

/-- Every key of the table is a state below `n`. -/
def IdTable.Below (m : IdTable) (n : ℕ) : Prop := ∀ s, n ≤ s → m.get s = []

theorem IdTable.get_eq_of_mem_entries {m : IdTable} {e : Sigma fun _ : ℕ => List ℕ}
    (he : e ∈ m.entries) : m.get e.1 = e.2 := by
  have h : m.lookup e.1 = some e.2 := AList.mem_lookup_iff.mpr he
  rw [IdTable.get, h, Option.getD_some]

theorem IdTable.exists_mem_entries_iff {m : IdTable} {s id : ℕ} :
    id ∈ m.get s ↔ ∃ e ∈ m.entries, e.1 = s ∧ id ∈ e.2 := by
  constructor
  · intro h
    unfold IdTable.get at h
    cases hl : m.lookup s with
    | none => simp [hl] at h
    | some ids =>
      rw [hl] at h
      exact ⟨⟨s, ids⟩, AList.mem_lookup_iff.mp hl, rfl, h⟩
  · rintro ⟨e, he, rfl, hid⟩
    rwa [IdTable.get_eq_of_mem_entries he]

/-! ## §2 End IDs -/

/-- `fsm_endid_set`: insert one ID at its place. -/
def endidSet (m : IdTable) (s id : ℕ) : IdTable := m.insert s (insertSorted (m.get s) id)

/-- `enum fsm_endid_bulk_op` -/
inductive EndidBulkOp where
  | append
  | replace
  deriving DecidableEq, Repr

/-- `fsm_endid_set_bulk`, with at least one ID (the callers check this). -/
def endidSetBulk (m : IdTable) (s : ℕ) (ids : List ℕ) (op : EndidBulkOp) : IdTable :=
  match op with
  | .replace => m.insert s (sortDedup ids)
  | .append => m.insert s (sortDedup (m.get s ++ ids))

/-- `copy_end_ids`: replace the IDs of `s + base` by those of `s`, for every entry of
`src`. -/
def endidCopy (dst src : IdTable) (base : ℕ) : IdTable :=
  src.entries.foldl (fun m e => endidSetBulk m (e.1 + base) e.2 .replace) dst

@[simp] theorem mem_get_endidSet (m : IdTable) (s id t i : ℕ) :
    i ∈ (endidSet m s id).get t ↔ (t = s ∧ i = id) ∨ i ∈ m.get t := by
  rw [endidSet, IdTable.get_insert]
  split
  · rename_i h
    simp [h]
  · rename_i h
    simp [h]

theorem mem_get_foldl_endidSet (m : IdTable) (s : ℕ) (ids : List ℕ) (t i : ℕ) :
    i ∈ IdTable.get (ids.foldl (fun m id => endidSet m s id) m) t ↔
      (t = s ∧ i ∈ ids) ∨ i ∈ m.get t := by
  rw [foldl_or_iff (i ∈ IdTable.get · t) fun _ _ => by rw [mem_get_endidSet, or_comm], or_comm]
  simp [and_comm]

theorem get_foldl_endidSet_ne {m : IdTable} {s t : ℕ} (ids : List ℕ) (h : t ≠ s) :
    IdTable.get (ids.foldl (fun m id => endidSet m s id) m) t = m.get t := by
  apply foldl_eq_of_step (IdTable.get · t)
  intro m id _
  rw [endidSet, IdTable.get_insert, if_neg h]

/-- Helper: the IDs of `t` after the copying loop, entry by entry. -/
private theorem get_foldl_endidCopy (l : List (Sigma fun _ : ℕ => List ℕ))
    (hl : l.NodupKeys) (dst : IdTable) (base t : ℕ) :
    IdTable.get (l.foldl (fun m e => endidSetBulk m (e.1 + base) e.2 .replace) dst) t =
      match (if base ≤ t then l.dlookup (t - base) else none) with
      | some ids => sortDedup ids
      | none => dst.get t := by
  induction l generalizing dst with
  | nil => simp
  | cons e l ih =>
    obtain ⟨hnot, hl'⟩ := List.nodupKeys_cons.mp hl
    rw [List.foldl_cons, ih hl']
    by_cases hbt : base ≤ t
    · by_cases hk : t - base = e.1
      · -- the entry for `t` is this one; the rest of the list does not touch it
        have hnone : l.dlookup (t - base) = none := by
          rw [hk]
          exact List.dlookup_eq_none.mpr hnot
        have ht : t = e.1 + base := by omega
        simp only [hbt, if_true, hnone]
        rw [hk, List.dlookup_cons_eq]
        simp only [endidSetBulk, IdTable.get_insert, ← ht, if_true]
      · have ht : t ≠ e.1 + base := by omega
        have hcons : (e :: l).dlookup (t - base) = l.dlookup (t - base) :=
          List.dlookup_cons_ne _ e hk
        simp only [hbt, if_true, hcons]
        split
        · rfl
        · simp only [endidSetBulk, IdTable.get_insert, ht, if_false]
    · have ht : t ≠ e.1 + base := by omega
      simp only [hbt, if_false, endidSetBulk, IdTable.get_insert, ht]

/-- Copying shifts the source's IDs above those of the destination. -/
theorem mem_get_endidCopy {dst src : IdTable} {base : ℕ} (hdst : dst.Below base)
    (t i : ℕ) :
    i ∈ (endidCopy dst src base).get t ↔
      if base ≤ t then i ∈ src.get (t - base) else i ∈ dst.get t := by
  rw [endidCopy, get_foldl_endidCopy src.entries src.nodupKeys]
  by_cases hbt : base ≤ t
  · simp only [hbt, if_true]
    unfold IdTable.get AList.lookup
    cases hl : src.entries.dlookup (t - base) with
    | none =>
      have := hdst t hbt
      unfold IdTable.get AList.lookup at this
      simp [this]
    | some ids => simp
  · simp only [hbt, if_false]

theorem below_endidCopy {dst src : IdTable} {base n : ℕ} (hdst : dst.Below base)
    (hsrc : src.Below n) : (endidCopy dst src base).Below (base + n) := by
  intro s hs
  rw [List.eq_nil_iff_forall_not_mem]
  intro i hi
  rw [mem_get_endidCopy hdst, if_pos (by omega), hsrc (s - base) (by omega)] at hi
  exact List.not_mem_nil hi

/-- The counters of the hash table of end IDs, and the number of its buckets that are in use. -/
structure EndidCounters where
  bucketCount : ℕ
  bucketsUsed : ℕ
  occupied : ℕ
  deriving DecidableEq, Repr

namespace EndidCounters

/-- The number of buckets is a power of two that `unsigned` can hold, and at most half of them are
counted as used.  `buckets_used` is too large after a compaction has dropped states. -/
structure Valid (c : EndidCounters) : Prop where
  count : ∃ k ≤ 30, c.bucketCount = 2 ^ (k + 1)
  occupied : c.occupied ≤ c.bucketsUsed
  half : c.bucketsUsed ≤ c.bucketCount / 2

/-- The counters of `endid_find_bucket` for a state that is not in the table. -/
def newBucket (c : EndidCounters) : Option EndidCounters :=
  if c.bucketsUsed = c.bucketCount / 2 then
    -- growing asserts that the number of buckets does not wrap around and that as many are
    -- copied as count as used
    if c.bucketCount < 2 * c.bucketCount % 2 ^ 32 ∧ c.occupied = c.bucketsUsed then
      some ⟨2 * c.bucketCount % 2 ^ 32, c.bucketsUsed + 1, c.occupied + 1⟩
    else none
  else some ⟨c.bucketCount, c.bucketsUsed + 1, c.occupied + 1⟩

/-- The counters after some new states. -/
def newBuckets : ℕ → EndidCounters → Option EndidCounters
  | 0, c => some c
  | n + 1, c => c.newBucket.bind (newBuckets n)

/-- There is room for `n` new states without growing, or the counter is right and `unsigned` can
hold the number of buckets. -/
def Room (c : EndidCounters) (n : ℕ) : Prop :=
  c.bucketsUsed + n ≤ c.bucketCount / 2 ∨
    (c.occupied = c.bucketsUsed ∧ c.bucketsUsed + n ≤ 2 ^ 30)

/-- A table grows while it has fewer than `2 ^ 31` buckets. -/
theorem Valid.grow_iff {c : EndidCounters} (h : c.Valid) :
    (c.bucketCount < 2 * c.bucketCount % 2 ^ 32 ↔ c.bucketCount < 2 ^ 31) ∧
      (c.bucketCount < 2 ^ 31 → c.bucketCount ≤ 2 ^ 30) ∧ 2 ≤ c.bucketCount ∧
      c.bucketCount ≤ 2 ^ 31 := by
  obtain ⟨k, hk, hcount⟩ := h.count
  rw [hcount]
  have hpos : 2 ^ 1 ≤ 2 ^ (k + 1) := Nat.pow_le_pow_right Nat.two_pos (by omega)
  rcases hk.eq_or_lt with rfl | hlt
  · decide
  · have hle : 2 ^ (k + 1) ≤ 2 ^ 30 := Nat.pow_le_pow_right Nat.two_pos (by omega)
    omega

theorem Valid.newBucket {c c' : EndidCounters} (h : c.Valid) (hc : c.newBucket = some c') :
    c'.Valid ∧ c'.bucketsUsed = c.bucketsUsed + 1 ∧ c'.occupied = c.occupied + 1 := by
  obtain ⟨hgrow, hle, htwo, -⟩ := h.grow_iff
  obtain ⟨k, hk, hcount⟩ := h.count
  have hocc := h.occupied
  have hhalf := h.half
  unfold EndidCounters.newBucket at hc
  split at hc
  · split at hc
    · rename_i hfull hok
      have hlt := hgrow.mp hok.1
      have hmod : 2 * c.bucketCount % 2 ^ 32 = 2 * c.bucketCount := by omega
      rw [hmod] at hc
      cases hc
      refine ⟨⟨⟨k + 1, ?_, by rw [hcount, ← Nat.pow_succ']⟩, ?_, ?_⟩, rfl, rfl⟩
      · have hpow : 2 ^ (k + 1) < 2 ^ 31 := hcount ▸ hlt
        have := (Nat.pow_lt_pow_iff_right (by decide)).mp hpow
        omega
      · dsimp only
        omega
      · dsimp only
        omega
    · cases hc
  · cases hc
    exact ⟨⟨⟨k, hk, hcount⟩, Nat.succ_le_succ hocc, by dsimp only; omega⟩, rfl, rfl⟩

/-- **How many new states a table can take.** -/
theorem Valid.newBuckets_isSome_iff {c : EndidCounters} (h : c.Valid) (n : ℕ) :
    (newBuckets n c).isSome = true ↔ c.Room n := by
  have hhalf := h.half
  induction n generalizing c with
  | zero => exact iff_of_true rfl (Or.inl hhalf)
  | succ n ih =>
    obtain ⟨hgrow, hle, -, hmax⟩ := h.grow_iff
    rw [newBuckets]
    cases hc : c.newBucket with
    -- the first bucket that cannot be had: the table is half full and cannot grow
    | none =>
      refine iff_of_false (by simp) fun hroom => ?_
      unfold EndidCounters.newBucket at hc
      split at hc
      · split at hc
        · cases hc
        · rename_i hfull hnot
          rw [hgrow, not_and_or] at hnot
          unfold Room at hroom
          omega
      · cases hc
    | some c' =>
      obtain ⟨hc', hused, hocc⟩ := h.newBucket hc
      refine (ih hc' hc'.half).trans ?_
      rw [Room, Room, hused, hocc]
      unfold EndidCounters.newBucket at hc
      split at hc
      · split at hc
        · rename_i hfull hok
          have := hle (hgrow.mp hok.1)
          cases hc
          dsimp only
          omega
        · cases hc
      · cases hc
        dsimp only
        omega

theorem Valid.newBuckets {c c' : EndidCounters} (h : c.Valid) {n : ℕ}
    (hc : EndidCounters.newBuckets n c = some c') : c'.Valid ∧ c'.occupied = c.occupied + n := by
  induction n generalizing c with
  | zero =>
    cases hc
    exact ⟨h, rfl⟩
  | succ n ih =>
    obtain ⟨c₁, hc₁, hc⟩ := Option.bind_eq_some_iff.mp hc
    obtain ⟨hvalid, -, hocc⟩ := h.newBucket hc₁
    obtain ⟨hvalid', hocc'⟩ := ih hvalid hc
    exact ⟨hvalid', by omega⟩

end EndidCounters

/-! ## §3 Eager Outputs -/

/-- `fsm_eager_output_set`: append the ID unless it is there. -/
def eagerOutputSet (m : IdTable) (s id : ℕ) : IdTable :=
  m.insert s (if id ∈ m.get s then m.get s else m.get s ++ [id])

/-- Set every ID of a list on one state. -/
def eagerOutputSetAll (m : IdTable) (s : ℕ) (ids : List ℕ) : IdTable :=
  ids.foldl (fun m id => eagerOutputSet m s id) m

/-- `copy_eager_output_ids`: set the IDs of `s` on `s + base`, for every entry of `src`. -/
def eagerOutputCopy (dst src : IdTable) (base : ℕ) : IdTable :=
  src.entries.foldl (fun m e => eagerOutputSetAll m (e.1 + base) e.2) dst

@[simp] theorem mem_get_eagerOutputSet (m : IdTable) (s id t i : ℕ) :
    i ∈ (eagerOutputSet m s id).get t ↔ (t = s ∧ i = id) ∨ i ∈ m.get t := by
  rw [eagerOutputSet, IdTable.get_insert]
  by_cases hts : t = s
  · subst hts
    simp only [if_true, true_and]
    split
    · rename_i h
      exact ⟨Or.inr, fun h' => h'.elim (fun h' => h' ▸ h) (fun h' => h')⟩
    · rw [List.mem_append, List.mem_singleton, or_comm]
  · simp [hts]

@[simp] theorem mem_get_eagerOutputSetAll (m : IdTable) (s : ℕ) (ids : List ℕ) (t i : ℕ) :
    i ∈ (eagerOutputSetAll m s ids).get t ↔ (t = s ∧ i ∈ ids) ∨ i ∈ m.get t := by
  rw [eagerOutputSetAll, foldl_or_iff (i ∈ IdTable.get · t) fun _ _ => by
    rw [mem_get_eagerOutputSet, or_comm], or_comm]
  simp [and_comm]

/-- Copying adds the source's IDs, shifted. -/
theorem mem_get_eagerOutputCopy (dst src : IdTable) (base t i : ℕ) :
    i ∈ (eagerOutputCopy dst src base).get t ↔
      i ∈ dst.get t ∨ (base ≤ t ∧ i ∈ src.get (t - base)) := by
  rw [eagerOutputCopy, foldl_or_iff (i ∈ IdTable.get · t) fun _ _ => by
    rw [mem_get_eagerOutputSetAll, or_comm, eq_comm]]
  refine or_congr Iff.rfl ⟨?_, ?_⟩
  · rintro ⟨e, he, rfl, hi⟩
    refine ⟨Nat.le_add_left base e.1, ?_⟩
    rwa [Nat.add_sub_cancel, IdTable.get_eq_of_mem_entries he]
  · rintro ⟨hbt, hi⟩
    obtain ⟨e, he, het, hi⟩ := IdTable.exists_mem_entries_iff.mp hi
    exact ⟨e, he, by omega, hi⟩

/-! ## §4 Captures -/

/-- `enum capture_action_type` -/
inductive CaptureActionType where
  | start
  | extend
  | commitZeroStep
  | commit
  deriving DecidableEq, Repr

/-- `struct fsm_capture_action_bucket`, with `to` absent for `CAPTURE_NO_STATE`. -/
structure CaptureAction where
  state : ℕ
  type : CaptureActionType
  id : ℕ
  dest : Option ℕ
  deriving DecidableEq, Repr

/-- `struct fsm_capture_info`: the occupied buckets and the largest capture ID. -/
structure CaptureInfo where
  buckets : List CaptureAction := []
  maxCaptureId : ℕ := 0
  deriving DecidableEq, Repr

/-- Every state that a capture action mentions is below `n`. -/
def CaptureInfo.Below (ci : CaptureInfo) (n : ℕ) : Prop :=
  ∀ a ∈ ci.buckets, a.state < n ∧ ∀ t ∈ a.dest, t < n

instance (ci : CaptureInfo) (n : ℕ) : Decidable (ci.Below n) :=
  inferInstanceAs (Decidable (∀ a ∈ ci.buckets, a.state < n ∧ ∀ t ∈ a.dest, t < n))

/-- `fsm_countcaptures` -/
def CaptureInfo.count (ci : CaptureInfo) : ℕ :=
  if ci.buckets.isEmpty then 0 else ci.maxCaptureId + 1

/-- `add_capture_action`: duplicates are ignored. -/
def CaptureInfo.addAction (ci : CaptureInfo) (a : CaptureAction) : CaptureInfo :=
  if a ∈ ci.buckets then ci
  else { buckets := ci.buckets ++ [a], maxCaptureId := max ci.maxCaptureId a.id }

/-- `fsm_capture_rebase_capture_id` -/
def CaptureInfo.rebaseId (ci : CaptureInfo) (base : ℕ) : CaptureInfo :=
  { buckets := ci.buckets.map fun a => { a with id := a.id + base }
    maxCaptureId := ci.buckets.foldl (fun m a => max m (a.id + base)) ci.maxCaptureId }

/-- `fsm_capture_rebase_capture_action_states` -/
def CaptureInfo.rebaseStates (ci : CaptureInfo) (base : ℕ) : CaptureInfo :=
  { ci with
    buckets := ci.buckets.map fun a =>
      { a with state := a.state + base, dest := a.dest.map (· + base) } }

/-- `copy_capture_actions` -/
def CaptureInfo.copyActions (dst src : CaptureInfo) : CaptureInfo :=
  src.buckets.foldl CaptureInfo.addAction dst

end Libfsm
