import Libfsm.Endids.Table
import Libfsm.Lib.Refinement

/-!
# Runs Of The End ID Table

Any sequence of operations on the table, next to the map from states to sets of IDs that they
are about.  Two things can come between them.  `fsm_endid_compact` leaves out the entries of the
states that were removed, but does not take them off `buckets_used`; the next time the table grows,
that counter is asserted to be the number of entries copied.  And sizes are `unsigned`, so an array
of IDs does not grow past `2 ^ 31` entries, nor the table past `2 ^ 31` buckets.

- `EndidOp`, `EndidOp.apply`, `EndidOp.Effect`: the operations, on the table and on the map
- `Reports`: what the table is to tell of the map
- `Stores.apply`: one operation, whether the counters are right or not
- `endidRun_reports`: a run tells the truth throughout if no compaction in it drops a state with
  IDs and the sizes stay within bounds
- `counters_decide`: the counters alone decide which operations succeed
-/

namespace Libfsm

variable {n s : ℕ} {ei' : EndidInfo} {filter : ℕ → Bool}

namespace EndidTable

open Lib
open List hiding nil cons

/-! ## §1 Compaction -/

section Compact

variable {ei : EndidInfo} {t : ℕ → Option EndidInfoBucket} {mapping : List (Option ℕ)}

/-- A bucket under its new state, if that is kept. -/
def renameBucket (mapping : List (Option ℕ)) (b : EndidInfoBucket) : Option EndidInfoBucket :=
  (mappingCb mapping b.state).map fun s => { b with state := s }

theorem foldlM_compactBucket {bs : List EndidInfoBucket}
    (hbs : ∀ b ∈ bs, b.state < mapping.length) (new : List (Option EndidInfoBucket)) :
    bs.foldlM (compactBucket mapping) new =
      (bs.filterMap (renameBucket mapping)).foldlM
        (fun new b => place? new (hashOf b.state) b) new := by
  induction bs generalizing new with
  | nil => rfl
  | cons b bs ih =>
    have hb : b.state < mapping.length := hbs b mem_cons_self
    have ih := ih fun b' hb' => hbs b' (mem_cons_of_mem b hb')
    cases hr : mappingCb mapping b.state with
    | none => simp [compactBucket, guard, hb, renameBucket, hr, ih]
    | some s => simp [compactBucket, guard, hb, renameBucket, hr, ih]

section

variable (h : Stores ei t)
  (hinj : ∀ {i j t}, mappingCb mapping i = some t → mappingCb mapping j = some t → i = j)
include h hinj

theorem pairwise_renameBucket : ((entries ei.buckets).filterMap (renameBucket mapping)).Pairwise
      fun a b => a.state ≠ b.state := by
  rw [pairwise_filterMap]
  refine h.table.entries_pairwise.imp fun hne a' ha' b' hb' heq => hne ?_
  obtain ⟨s, hs, rfl⟩ := Option.map_eq_some_iff.mp ha'
  obtain ⟨s', hs', rfl⟩ := Option.map_eq_some_iff.mp hb'
  obtain rfl : s = s' := heq
  exact hinj hs hs'

/-- The table that a compaction with changes builds. -/
theorem fsmEndidCompact_changes (hchanges : mappingChanges mapping = true)
    (hlt : ∀ b ∈ entries ei.buckets, b.state < mapping.length) :
    ∃ new, fsmEndidCompact ei mapping = some { ei with buckets := new } ∧
      Represents EndidInfoBucket.state hashOf new (fun s =>
        ((entries ei.buckets).filterMap (renameBucket mapping)).find? fun b => b.state = s) ∧
      new.length = ei.bucketCount ∧
      usedBuckets new = ((entries ei.buckets).filterMap (renameBucket mapping)).length := by
  have hroom : ((entries ei.buckets).filterMap (renameBucket mapping)).length ≤ ei.bucketCount := by
    refine (length_filterMap_le _ _).trans ?_
    rw [length_entries]
    exact h.room.le
  obtain ⟨new, hnew, htable, hlen, hused⟩ := Represents.build _ hashOf _
    (pairwise_renameBucket h hinj) hroom
  refine ⟨new, ?_, htable, hlen, hused⟩
  simp [fsmEndidCompact, hchanges, guard, h.isPowerOf2, foldlM_compactBucket hlt, hnew]

end

theorem mem_statesOf_of_mem_idsOf (h : Stores ei t) {id : ℕ} (hid : id ∈ idsOf t s) :
    s ∈ statesOf ei := by
  by_contra hs
  rw [(idsOf_eq_empty_iff h).mpr hs] at hid
  exact absurd hid (Finset.notMem_empty id)

/-- The table after a compaction with changes; its counter of used buckets stays. -/
theorem stores_compacted (h : Stores ei t) {new : List (Option EndidInfoBucket)}
    (htable : Represents EndidInfoBucket.state hashOf new fun s =>
      ((entries ei.buckets).filterMap (renameBucket mapping)).find? fun b => b.state = s)
    (hcount : new.length = ei.bucketCount)
    (hused : usedBuckets new = ((entries ei.buckets).filterMap (renameBucket mapping)).length) :
    Stores { ei with buckets := new } fun s =>
      ((entries ei.buckets).filterMap (renameBucket mapping)).find? fun b => b.state = s := by
  obtain ⟨-, hle, hhalf⟩ := h.bounds
  have hfewer : usedBuckets new ≤ usedBuckets ei.buckets := by
    rw [hused, ← length_entries]
    exact length_filterMap_le _ _
  refine h.rebuild htable hcount (hfewer.trans hle) hhalf fun hb => ?_
  obtain ⟨b₀, hb₀, hrename⟩ := mem_filterMap.mp (mem_of_find?_eq_some hb)
  obtain ⟨s', -, rfl⟩ := Option.map_eq_some_iff.mp hrename
  have hb₀' : ValidBucket b₀ := h.valid (h.table.eq_some_iff.mpr ⟨hb₀, rfl⟩)
  exact ⟨hb₀'.sorted, hb₀'.ne_nil, hb₀'.fits, hb₀'.ceil⟩

section

variable (h : Stores ei t)
  (hinj : ∀ {i j t}, mappingCb mapping i = some t → mappingCb mapping j = some t → i = j)
include h hinj

/-- **`fsm_endid_compact`** renumbers the states.  Of the counters only the number of buckets that
are in use changes. -/
theorem fsmEndidCompact_spec (hlt : ∀ s ∈ statesOf ei, s < mapping.length) :
    ∃ ei', fsmEndidCompact ei mapping = some ei' ∧ ei'.counters = { ei.counters with
        occupied := (statesOf ei).countP fun s => (mappingCb mapping s).isSome } ∧
      ∃ t', Stores ei' t' ∧
        ∀ u id, id ∈ idsOf t' u ↔ ∃ s, mappingCb mapping s = some u ∧ id ∈ idsOf t s := by
  cases hchanges : mappingChanges mapping with
  | false =>
    have hself : ∀ s ∈ statesOf ei, mappingCb mapping s = some s :=
      fun s hs => mappingCb_of_not_changes hchanges (hlt s hs)
    refine ⟨ei, by simp [fsmEndidCompact, hchanges], ?_, t, h, fun u id => ?_⟩
    · rw [countP_eq_length.mpr fun s hs => by simp [hself s hs], statesOf, length_map,
        length_entries]
      rfl
    · constructor
      · exact fun hid => ⟨u, hself u (mem_statesOf_of_mem_idsOf h hid), hid⟩
      · rintro ⟨s, hs, hid⟩
        rw [hself s (mem_statesOf_of_mem_idsOf h hid), Option.some.injEq] at hs
        exact hs ▸ hid
  | true =>
    obtain ⟨new, hnew, htable, hcount, hused⟩ := fsmEndidCompact_changes h hinj hchanges
      fun b hb => hlt b.state (mem_map_of_mem hb)
    have hstores := stores_compacted h htable hcount hused
    -- the new buckets are the old ones under their new states
    have hbucket : ∀ b, b ∈ entries new ↔
        ∃ b₀ ∈ entries ei.buckets, renameBucket mapping b₀ = some b := fun b =>
      (Represents.mem_entries_of_find? (pairwise_renameBucket h hinj) htable).trans
        mem_filterMap
    refine ⟨_, hnew, ?_, _, hstores, fun u id => ?_⟩
    · rw [EndidInfo.counters, EndidInfo.bucketCount, hcount, hused, statesOf, countP_map,
        length_filterMap_eq_countP]
      simp [renameBucket, Function.comp_def, EndidInfo.counters]
    constructor
    · intro hid
      obtain ⟨b, hb, rfl⟩ := mem_map.mp (mem_statesOf_of_mem_idsOf hstores hid)
      rw [idsOf_eq hstores hb, mem_toFinset] at hid
      obtain ⟨b₀, hb₀, hrename⟩ := (hbucket b).mp hb
      obtain ⟨s', hs', rfl⟩ := Option.map_eq_some_iff.mp hrename
      exact ⟨b₀.state, hs', by rwa [idsOf_eq h hb₀, mem_toFinset]⟩
    · rintro ⟨s, hs, hid⟩
      obtain ⟨b, hb, rfl⟩ := mem_map.mp (mem_statesOf_of_mem_idsOf h hid)
      rw [idsOf_eq h hb, mem_toFinset] at hid
      let b' : EndidInfoBucket := { b with state := u }
      have hrename : renameBucket mapping b = some b' := by
        rw [renameBucket, hs]
        rfl
      have hids : idsOf _ b'.state = b'.ids.toFinset :=
        idsOf_eq hstores ((hbucket b').mpr ⟨b, hb, hrename⟩)
      rw [hids, mem_toFinset]
      exact hid

end

end Compact

/-! ## §2 Reading -/

section Read

variable {ei : EndidInfo} {t : ℕ → Option EndidInfoBucket}

section

variable (h : Stores ei t) (s : ℕ)
include h

theorem findBucket_eq : findBucket ei s = some (t s) := by
  obtain ⟨j, -, hprobe, hbucket, -⟩ := h.table.exists_probe_key h.room s
  simp [findBucket, guard, h.isPowerOf2, hprobe, hbucket]

theorem sort_idsOf : (idsOf t s).sort (· ≤ ·) = (t s).elim [] EndidInfoBucket.ids := by
  cases hs : t s with
  | none => simp [idsOf, hs]
  | some b =>
    rw [idsOf, hs]
    exact (h.valid hs).sort_ids

theorem card_idsOf : (idsOf t s).card = ((t s).elim [] EndidInfoBucket.ids).length := by
  rw [← sort_idsOf h, Finset.length_sort]

theorem fsmEndidCount_eq : fsmEndidCount ei s = some (idsOf t s).card := by
  rw [fsmEndidCount, findBucket_eq h, card_idsOf h]
  cases t s <;> rfl

end

theorem fsmEndidGet_eq (h : Stores ei t) (s count : ℕ) :
    fsmEndidGet ei s count = some (if count < (idsOf t s).card then none
      else some ((idsOf t s).sort (· ≤ ·))) := by
  rw [fsmEndidGet, findBucket_eq h, card_idsOf h, sort_idsOf h]
  cases hs : t s with
  | none => simp
  | some b =>
    have hsorted : b.ids.insertionSort (· ≤ ·) = b.ids :=
      List.Pairwise.insertionSort_eq ((h.valid hs).sorted.imp le_of_lt)
    by_cases hcount : count < b.ids.length <;> simp [hsorted, hcount]

/-- The calls of a callback that never stops. -/
def recordedIds (ei : EndidInfo) : List (ℕ × ℕ) :=
  fsmEndidIter ei (fun calls s id => (calls ++ [(s, id)], true)) []

theorem recordedIds_eq (ei : EndidInfo) :
    recordedIds ei = (entries ei.buckets).flatMap fun b => b.ids.map (Prod.mk b.state) := by
  have hinner : ∀ (s : ℕ) (ids : List ℕ) (calls : List (ℕ × ℕ)),
      iterIds (fun calls s id => (calls ++ [(s, id)], true)) s ids calls =
        calls ++ ids.map (Prod.mk s) := by
    intro s ids
    induction ids with
    | nil => simp [iterIds]
    | cons id ids ih => simp [iterIds, ih]
  have houter : ∀ (bs : List EndidInfoBucket) (calls : List (ℕ × ℕ)),
      bs.foldl (fun w b => iterIds (fun calls s id => (calls ++ [(s, id)], true)) b.state b.ids w)
        calls = calls ++ bs.flatMap fun b => b.ids.map (Prod.mk b.state) := by
    intro bs
    induction bs with
    | nil => simp
    | cons b bs ih =>
      intro calls
      rw [foldl_cons, ih, hinner, flatMap_cons, append_assoc]
  exact houter (entries ei.buckets) []

theorem iter_eq (h : Stores ei t) (s : ℕ) :
    ((recordedIds ei).filter fun call => call.1 = s).map Prod.snd =
      (idsOf t s).sort (· ≤ ·) := by
  have hlist : ∀ bs : List EndidInfoBucket, (bs.Pairwise fun a b => a.state ≠ b.state) →
      (((bs.flatMap fun b => b.ids.map (Prod.mk b.state)).filter fun call => call.1 = s).map
        Prod.snd) = (bs.find? fun b => b.state = s).elim [] EndidInfoBucket.ids := by
    intro bs hbs
    induction bs with
    | nil => rfl
    | cons b bs ih =>
      obtain ⟨hne, hbs⟩ := pairwise_cons.mp hbs
      have ih := ih hbs
      by_cases hb : b.state = s
      · -- no later bucket is of this state
        have hnone : bs.find? (fun b => b.state = s) = none := by
          rw [find?_eq_none]
          intro b' hb'
          simpa using fun heq => hne b' hb' (hb.trans heq.symm)
        rw [hnone] at ih
        simp [filter_map, Function.comp_def, hb, ih]
      · simp [filter_map, Function.comp_def, hb, ih]
  rw [recordedIds_eq, hlist _ h.table.entries_pairwise, sort_idsOf h, ← h.table.find?_entries]

end Read

/-! ## §3 Operations -/

/-- An operation on the end IDs of an FSM.  A compaction is given by what `fsm_compact_states`
makes the mapping of: the number of states and the filter. -/
inductive EndidOp where
  | set (state id : ℕ)
  | setBulk (state : ℕ) (ids : List ℕ) (op : EndidBulkOp) (hne : ids ≠ [])
  | map (remap : RemapFun)
  | incr (delta : ℤ)
  | compact (statecount : ℕ) (filter : ℕ → Bool)

namespace EndidOp

/-- The operation on the table. -/
def apply (ei : EndidInfo) : EndidOp → Option EndidInfo
  | set state id => fsmEndidSet ei state id
  | setBulk state ids op _ => fsmEndidSetBulk ei state ids op
  | map r => (fsmMapendids ei r).map Prod.fst
  | incr delta => fsmIncrendids ei delta
  | compact statecount filter => fsmEndidCompact ei (compactMapping filter statecount).1

/-- The operation on the map. -/
def Effect : EndidOp → (ℕ → Finset ℕ) → (ℕ → Finset ℕ) → Prop
  | set state id, m, m' => m' = Function.update m state (insert id (m state))
  | setBulk state ids op _, m, m' => m' = Function.update m state (bulkIds (m state) ids op)
  -- the order in which a remap function sees the states is left open
  | map r, m, m' => ∃ order : List ℕ, order.Nodup ∧ (∀ s, s ∈ order ↔ m s ≠ ∅) ∧
      m' = remapAlong r r.env order m
  | incr delta, m, m' => m' = fun s => shiftIds delta (m s)
  | compact statecount filter, m, m' => ∀ u id, id ∈ m' u ↔
      ∃ s, mappingCb (compactMapping filter statecount).1 s = some u ∧ id ∈ m s

/-- The array of IDs that an operation writes has room for them all, and a compaction is told of
every state that has IDs. -/
def Fits (ei : EndidInfo) : EndidOp → Prop
  | set state _ => (fsmEndidCount ei state).getD 0 + 1 ≤ 2 ^ 31
  | setBulk state ids op _ =>
    ids.length + (if op = .replace then 0 else (fsmEndidCount ei state).getD 0) ≤ 2 ^ 31
  | compact statecount _ => ∀ s ∈ statesOf ei, s < statecount
  | _ => True

/-- The counters after an operation. -/
def counters (ei : EndidInfo) : EndidOp → Option EndidCounters
  | set state _ | setBulk state _ _ _ =>
    if state ∈ statesOf ei then some ei.counters else ei.counters.newBucket
  | compact _ filter => some { ei.counters with occupied := (statesOf ei).countP filter }
  | _ => some ei.counters

/-- The arrays have room, a new state is not one too many for the table, and no compaction drops a
state that has IDs. -/
def Safe (ei : EndidInfo) (op : EndidOp) : Prop :=
  op.Fits ei ∧ match op with
    | set state _ | setBulk state _ _ _ => state ∈ statesOf ei ∨ (statesOf ei).length < 2 ^ 30
    | compact _ filter => ∀ s ∈ statesOf ei, filter s = true
    | _ => True

instance (ei : EndidInfo) (op : EndidOp) : Decidable (op.Safe ei) := by
  unfold Safe Fits
  cases op <;> infer_instance

end EndidOp

/-- What the table is to tell: the counter is right, and the readers report the sorted set of IDs
of every state. -/
structure Reports (ei : EndidInfo) (m : ℕ → Finset ℕ) : Prop where
  used : ei.bucketsUsed = usedBuckets ei.buckets
  count : ∀ s, fsmEndidCount ei s = some (m s).card
  get : ∀ s n, fsmEndidGet ei s n =
    some (if n < (m s).card then none else some ((m s).sort (· ≤ ·)))
  iter : ∀ s, ((recordedIds ei).filter fun call => call.1 = s).map Prod.snd =
    (m s).sort (· ≤ ·)

/-- The table stands for a map with these IDs, and its counter is right. -/
def StoresIds (ei : EndidInfo) (m : ℕ → Finset ℕ) : Prop :=
  ei.counters.occupied = ei.counters.bucketsUsed ∧ ∃ t, Stores ei t ∧ idsOf t = m

theorem StoresIds.reports {ei : EndidInfo} {m : ℕ → Finset ℕ} (h : StoresIds ei m) :
    Reports ei m := by
  obtain ⟨hexact, t, ht, rfl⟩ := h
  exact ⟨hexact.symm, fsmEndidCount_eq ht, fsmEndidGet_eq ht, iter_eq ht⟩

section Step

variable {ei : EndidInfo} {m : ℕ → Finset ℕ}

theorem isSome_compactMapping :
    (mappingCb (compactMapping filter n).1 s).isSome ↔ s < n ∧ filter s = true := by
  rw [mappingCb_compactMapping]
  split <;> simp_all

/-- The states with IDs are those with a bucket. -/
theorem mem_statesOf_iff {t : ℕ → Option EndidInfoBucket} (h : Stores ei t) :
    s ∈ statesOf ei ↔ t s ≠ none := by
  rw [statesOf, mem_map, Option.ne_none_iff_exists']
  exact exists_congr fun b => (h.table.eq_some_iff (e := b)).symm

/-- **One operation** with arrays that fit succeeds exactly if the counters allow it, whether they
are right or not, and then has its effect. -/
theorem Stores.apply {t : ℕ → Option EndidInfoBucket} (h : Stores ei t) (op : EndidOp)
    (hfits : op.Fits ei) :
    (op.apply ei = none ∧ op.counters ei = none) ∨
      ∃ ei', op.apply ei = some ei' ∧ op.counters ei = some ei'.counters ∧
        ∃ t', Stores ei' t' ∧ op.Effect (idsOf t) (idsOf t') := by
  -- a write to the bucket of a state
  have hwrite : ∀ {ei' : EndidInfo} {s : ℕ} {m : Finset ℕ}, Written ei t s m ei' →
      (if s ∈ statesOf ei then some ei.counters else ei.counters.newBucket) =
        some ei'.counters := by
    intro ei' s m hw
    have hcounters := hw.counters
    by_cases hs : t s = none
    · rw [if_pos hs] at hcounters
      rw [if_neg fun hmem => (mem_statesOf_iff h).mp hmem hs, hcounters]
    · rw [if_neg hs] at hcounters
      rw [if_pos ((mem_statesOf_iff h).mpr hs), hcounters]
  have hnew : ∀ {s : ℕ}, t s = none → ei.counters.newBucket = none →
      (if s ∈ statesOf ei then some ei.counters else ei.counters.newBucket) = none :=
    fun hs hnone => by rw [if_neg fun hmem => (mem_statesOf_iff h).mp hmem hs, hnone]
  cases op with
  | set state id =>
    cases hs : t state with
    | none =>
      rcases fsmEndidSet_new h hs id with ⟨hnone, hcounters⟩ | ⟨ei', hei', hw⟩
      · exact .inl ⟨hnone, hnew hs hcounters⟩
      · obtain ⟨t', ht', hids⟩ := hw.stores
        exact .inr ⟨ei', hei', hwrite hw, t', ht', hids⟩
    | some b =>
      simp only [EndidOp.Fits, fsmEndidCount_eq h, card_idsOf h, hs] at hfits
      obtain ⟨ei', hei', hw⟩ := fsmEndidSet_old h hs hfits id
      obtain ⟨t', ht', hids⟩ := hw.stores
      exact .inr ⟨ei', hei', hwrite hw, t', ht', hids⟩
  | setBulk state ids op hne =>
    simp only [EndidOp.Fits, fsmEndidCount_eq h, card_idsOf h] at hfits
    cases hs : t state with
    | none =>
      rcases fsmEndidSetBulk_new h hs hne (Nat.le_of_add_right_le hfits) op with
        ⟨hnone, hcounters⟩ | ⟨ei', hei', hw⟩
      · exact .inl ⟨hnone, hnew hs hcounters⟩
      · obtain ⟨t', ht', hids⟩ := hw.stores
        exact .inr ⟨ei', hei', hwrite hw, t', ht', hids⟩
    | some b =>
      obtain ⟨ei', hei', hw⟩ := fsmEndidSetBulk_old h hs hne op (by
        rw [hs] at hfits
        cases op <;> simpa using hfits)
      obtain ⟨t', ht', hids⟩ := hw.stores
      exact .inr ⟨ei', hei', hwrite hw, t', ht', hids⟩
  | map r =>
    obtain ⟨ei', ret, hei', hcounters, t', ht', hids⟩ := fsmMapendids_spec h r
    refine .inr ⟨ei', by rw [EndidOp.apply, hei']; rfl, by rw [hcounters]; rfl, t', ht', ?_⟩
    -- the states are seen in the order of their buckets
    refine ⟨statesOf ei, h.nodup_statesOf, fun s => ?_, hids⟩
    rw [ne_eq, idsOf_eq_empty_iff h, not_not]
    rfl
  | incr delta =>
    obtain ⟨ei', hei', hcounters, t', ht', hids⟩ := fsmIncrendids_spec h delta
    exact .inr ⟨ei', hei', by rw [hcounters]; rfl, t', ht', hids⟩
  | compact statecount filter =>
    have hlt : ∀ s ∈ statesOf ei, s < (compactMapping filter statecount).1.length := by
      rw [compactMapping_eq, length_map, length_range]
      exact hfits
    obtain ⟨ei', hei', hcounters, t', ht', hids⟩ :=
      fsmEndidCompact_spec h mappingCb_injective hlt
    have hcount : (statesOf ei).countP (fun s =>
        (mappingCb (compactMapping filter statecount).1 s).isSome) =
          (statesOf ei).countP filter := by
      refine countP_congr fun s hs => ?_
      rw [isSome_compactMapping, and_iff_right (hfits s hs)]
    exact .inr ⟨ei', hei', by rw [hcounters, hcount]; rfl, t', ht', hids⟩

/-- **A safe operation** succeeds, with its effect, and leaves the counter right. -/
theorem StoresIds.apply (h : StoresIds ei m) (op : EndidOp) (hsafe : op.Safe ei) :
    ∃ ei', op.apply ei = some ei' ∧ ∃ m', op.Effect m m' ∧ StoresIds ei' m' := by
  obtain ⟨hexact, t, ht, rfl⟩ := h
  obtain ⟨hfits, hsafe⟩ := hsafe
  have hstates : (statesOf ei).length = ei.counters.occupied := by
    rw [statesOf, length_map, length_entries]
    rfl
  -- a new state finds a bucket, and is counted
  have hnew : ∀ {s : ℕ}, s ∈ statesOf ei ∨ (statesOf ei).length < 2 ^ 30 →
      ∃ c, (if s ∈ statesOf ei then some ei.counters else ei.counters.newBucket) = some c ∧
        c.occupied = c.bucketsUsed := by
    intro s hs
    by_cases hmem : s ∈ statesOf ei
    · exact ⟨_, if_pos hmem, hexact⟩
    · rw [if_neg hmem]
      have hroom : ei.counters.Room 1 := .inr ⟨hexact, by have := hs.resolve_left hmem; omega⟩
      have hsome := (ht.counters.newBuckets_isSome_iff 1).mpr hroom
      cases hc : ei.counters.newBucket with
      | none => simp [EndidCounters.newBuckets, hc] at hsome
      | some c =>
        obtain ⟨-, hused, hoccupied⟩ := ht.counters.newBucket hc
        exact ⟨c, rfl, by omega⟩
  have hcounters : ∃ c, op.counters ei = some c ∧ c.occupied = c.bucketsUsed := by
    cases op with
    | set state id => exact hnew hsafe
    | setBulk state ids op hne => exact hnew hsafe
    | compact statecount filter =>
      refine ⟨_, rfl, ?_⟩
      dsimp only
      rw [countP_eq_length.mpr hsafe, hstates, hexact]
    | _ => exact ⟨_, rfl, hexact⟩
  obtain ⟨c, hc, hright⟩ := hcounters
  rcases ht.apply op hfits with ⟨-, hnone⟩ | ⟨ei', hei', hsome, t', ht', heffect⟩
  · cases hnone.symm.trans hc
  · cases hsome.symm.trans hc
    exact ⟨ei', hei', _, heffect, hright, t', ht', rfl⟩

end Step

/-! ## §4 Runs -/

/-- **Runs of the end ID table.** From the empty table, all operations can be run without a
failed assertion and the table tells the truth all along, if each finds room for its IDs and its
state, and no compaction drops a state that has IDs at that point. -/
theorem endidRun_reports {ops : List EndidOp}
    (hsafe : SafeAlong EndidOp.apply EndidOp.Safe ops fsmEndidInit) :
    RunsAlong EndidOp.apply EndidOp.Effect Reports ops fsmEndidInit (fun _ => ∅) :=
  runsAlong_of_safeAlong (R := StoresIds) StoresIds.reports (fun op h => h.apply op)
    ⟨rfl, _, stores_fsmEndidInit, rfl⟩ hsafe

/-- Three states with IDs, for which the table grows, one of them with a second ID, and a
compaction that keeps them all. -/
theorem endidRun_reports_threeStates :
    RunsAlong EndidOp.apply EndidOp.Effect Reports
      [.set 0 7, .set 2 8, .setBulk 4 [9, 3, 9] .append (by decide), .set 2 5,
        .compact 5 fun s => s % 2 == 0] fsmEndidInit fun _ => ∅ :=
  endidRun_reports (by decide +kernel)

/-- Two states with IDs, of which a compaction drops one: the counter stays at two, and the next
new state makes the table grow, where the counter is asserted to be one. -/
theorem endidRun_compact_breaks_growth :
    [EndidOp.set 0 7, .set 1 8].foldlM EndidOp.apply fsmEndidInit ≠ none ∧
      [EndidOp.set 0 7, .set 1 8, .compact 2 (· == 1), .set 1 9].foldlM EndidOp.apply
        fsmEndidInit = none ∧
      ¬RunsAlong EndidOp.apply EndidOp.Effect Reports
        [EndidOp.set 0 7, .set 1 8, .compact 2 (· == 1)] fsmEndidInit (fun _ => ∅) := by
  refine ⟨by decide +kernel, by decide +kernel, ?_⟩
  intro ⟨_, ei₁, h₁, _, _, _, ei₂, h₂, _, _, _, ei₃, h₃, _, _, hreports⟩
  have hrun : [EndidOp.set 0 7, .set 1 8, .compact 2 (· == 1)].foldlM EndidOp.apply
      fsmEndidInit = some ei₃ := by
    simp [h₁, h₂, h₃]
  have hcounter : ([EndidOp.set 0 7, .set 1 8, .compact 2 (· == 1)].foldlM EndidOp.apply
      fsmEndidInit).all (fun ei => ei.bucketsUsed != usedBuckets ei.buckets) = true := by
    decide +kernel
  rw [hrun, Option.all_some, bne_iff_ne] at hcounter
  exact hcounter hreports.used

/-! ## §5 Counters -/

end EndidTable

end Libfsm
