import Libfsm.Adt.InternedStateSet
import Libfsm.Fsm.Basic
import Libfsm.Ops.LabelPartition

/-!
# Closure Analysis

`analyze_closures__pairwise_grouping` of `determinise.c`: the label partition of a set of
states, found by merging the partitions of single states pair by pair.  Every partition
found is kept, and looked up again by the state or the pair of results it was made from.

- `AnalyzeClosuresEnv`: the results, the table of the cache, and the destination sets,
  which are stored once each
- `cacheSingleStateAnalysis`, `combinePair`, `combineRounds`: one state, two results, a list
- `analyzeClosuresPairwiseGrouping`: the outputs for a set, one for each destination set
- `AnalyzeClosuresEnv.Valid`: every stored result is a partition, and what the cache says
  about it is true
- `analyzeClosuresPairwiseGrouping_spec`: the outputs are those of the plain construction

Result IDs and state numbers share one integer type in the source, told apart by
`RESULT_BIT`; here they are the two cases of `AnalysisId`.
-/

namespace Libfsm

open Lib
open List hiding count lookup next partition nil cons set

variable {id : ℕ} {pool : InternedStateSetPool} {f : Fsm}

/-! ## §1 The Environment -/

/-- `struct result_entry`; the destination set is given by its index. -/
structure ResultEntry where
  labels : Symbols
  toSet : ℕ
  deriving DecidableEq

/-- What a cached result was made from, the type and `ids` of a
`struct result_pair_bucket`. -/
inductive AnalysisKey where
  /-- `RPBT_SINGLE_STATE` -/
  | singleState (s : ℕ)
  /-- `RPBT_PAIR`, the lower result ID first -/
  | pair (a b : ℕ)
  deriving DecidableEq

/-- The key of two result IDs, in either order. -/
def AnalysisKey.ofPair (a b : ℕ) : AnalysisKey := if a < b then .pair a b else .pair b a

/-- `hash_id` of the state, or `hash_pair`. -/
def AnalysisKey.hash : AnalysisKey → ℕ
  | .singleState s => (hashId (UInt64.ofNat s)).toNat
  | .pair a b => (hashId ((UInt64.ofNat a <<< 32) ||| UInt64.ofNat b)).toNat

/-- `struct result_pair_bucket` -/
structure ResultPairBucket where
  key : AnalysisKey
  resultId : ℕ

/-- `struct analyze_closures_env` -/
structure AnalyzeClosuresEnv where
  /-- `results.rs` -/
  results : List (List ResultEntry) := []
  /-- `htab.buckets` -/
  htab : List (Option ResultPairBucket) := []
  /-- `to_sets` with `to_set_htab` -/
  toSets : Interner (List ℕ) := { buckets := [] }

/-- The pieces of a result, with their destination sets. -/
def AnalyzeClosuresEnv.pieces (env : AnalyzeClosuresEnv) (id : ℕ) : List Piece :=
  (env.results.getD id []).map fun e => ⟨env.toSets.items.getD e.toSet [], e.labels⟩

/-- The size of a table that has to grow: 64 buckets at first, then twice as many. -/
def grownCount (count : ℕ) : ℕ := if count = 0 then 64 else 2 * count

/-- `save_to_set`: the set's index, adding it if it is new. -/
def saveToSet (toSets : Interner (List ℕ)) (dst : List ℕ) : ℕ × Interner (List ℕ) :=
  match toSets.find hashStateIds dst with
  | some id => (id, toSets)
  | none =>
    (toSets.items.length,
      (toSets.reserve hashStateIds (toSets.buckets.length / 2 ≤ toSets.items.length)
        (grownCount toSets.buckets.length)).add hashStateIds dst)

/-- `add_group_dst_info_to_buffer`, for all pieces in turn. -/
def bufferPieces (toSets : Interner (List ℕ)) : List Piece →
    List ResultEntry × Interner (List ℕ)
  | [] => ([], toSets)
  | p :: ps =>
    let (id, toSets) := saveToSet toSets p.dst
    let (buffer, toSets) := bufferPieces toSets ps
    (⟨p.labels, id⟩ :: buffer, toSets)

/-- Buffer the pieces, then `commit_buffered_result`: the new result's ID. -/
def commitPieces (env : AnalyzeClosuresEnv) (ps : List Piece) : ℕ × AnalyzeClosuresEnv :=
  let (buffer, toSets) := bufferPieces env.toSets ps
  (env.results.length, { env with results := env.results ++ [buffer], toSets := toSets })

/-- `analysis_cache_check_single_state`, `analysis_cache_check_pair` -/
def analysisCacheCheck (env : AnalyzeClosuresEnv) (key : AnalysisKey) : Option ℕ :=
  (lookup env.htab key.hash fun b => b.key == key).map ResultPairBucket.resultId

def pairCacheSave (env : AnalyzeClosuresEnv) (key : AnalysisKey) (resultId : ℕ) :
    AnalyzeClosuresEnv :=
  { env with
    htab := place
      (reserve (fun b => b.key.hash) env.htab (env.htab.length / 2 ≤ usedBuckets env.htab)
        (grownCount env.htab.length))
      key.hash ⟨key, resultId⟩ }

/-! ## §2 Analysis -/

def cacheSingleStateAnalysis (f : Fsm) (env : AnalyzeClosuresEnv) (s : ℕ) :
    ℕ × AnalyzeClosuresEnv :=
  -- the group iterator yields one group for each destination, so the branch that extends the
  -- current group is never taken
  let (id, env) := commitPieces env (partitionGroups (edgeSetGroups (f.state s).edges))
  (id, pairCacheSave env (.singleState s) id)

/-- An entry of the buffers `pbuf`: a state, or a result ID with `RESULT_BIT`. -/
inductive AnalysisId where
  | state (s : ℕ)
  | result (id : ℕ)
  deriving DecidableEq, Repr

/-- `id &~ RESULT_BIT` -/
def AnalysisId.mask : AnalysisId → ℕ
  | .state s => s
  | .result id => id

/-- The result ID for an entry: a state's analysis is looked up, or made. -/
def resultOf (f : Fsm) (env : AnalyzeClosuresEnv) : AnalysisId → ℕ × AnalyzeClosuresEnv
  | .result id => (id, env)
  | .state s =>
    match analysisCacheCheck env (.singleState s) with
    | some id => (id, env)
    | none => cacheSingleStateAnalysis f env s

def combinePair (f : Fsm) (env : AnalyzeClosuresEnv) (pa pb : AnalysisId) :
    ℕ × AnalyzeClosuresEnv :=
  let (a, env) := resultOf f env pa
  let (b, env) := resultOf f env pb
  match analysisCacheCheck env (.ofPair a b) with
  | some id => (id, env)
  | none =>
    -- `combine_result_pair_and_commit`, then `analysis_cache_save_pair`
    let (id, env) := commitPieces env (combinePieces (env.pieces a) (env.pieces b))
    (id, pairCacheSave env (.ofPair a b) id)

/-- One round: entries are combined two by two, an odd one is kept for the next round. -/
def combineRound (f : Fsm) (env : AnalyzeClosuresEnv) : List AnalysisId →
    List AnalysisId × AnalyzeClosuresEnv
  | pa :: pb :: ids =>
    let (id, env) := combinePair f env pa pb
    let (next, env) := combineRound f env ids
    (.result id :: next, env)
  | ids => (ids, env)

/-- Rounds until one entry is left. -/
def combineRounds (f : Fsm) : ℕ → AnalyzeClosuresEnv → List AnalysisId →
    List AnalysisId × AnalyzeClosuresEnv
  | 0, env, ids => (ids, env)
  | fuel + 1, env, ids =>
    if ids.length ≤ 1 then (ids, env)
    else
      -- each round halves their number
      let (ids, env) := combineRound f env ids
      combineRounds f fuel env ids

/-- `struct ac_output` -/
structure AcOutput where
  labels : Symbols
  iss : InternedStateSetId

/-- `build_output_from_cached_analysis`: intern the destination sets of a result. -/
def buildOutput (pool : InternedStateSetPool) : List Piece →
    List AcOutput × InternedStateSetPool
  | [] => ([], pool)
  | p :: ps =>
    let (iss, pool) := internedStateSetInternSet pool p.dst
    let (outputs, pool) := buildOutput pool ps
    (⟨p.labels, iss⟩ :: outputs, pool)

/-- The result ID for a list of states: one state by itself, more of them by rounds. -/
def analyzeStates (f : Fsm) (env : AnalyzeClosuresEnv) (states : List ℕ) :
    ℕ × AnalyzeClosuresEnv :=
  if states.length = 1 then resultOf f env (.state (states.headD 0))
  else
    let (ids, env) := combineRounds f states.length env (states.map .state)
    ((ids.headD (.state 0)).mask, env)

def analyzeClosuresPairwiseGrouping (f : Fsm) (env : AnalyzeClosuresEnv)
    (pool : InternedStateSetPool) (iss : InternedStateSetId) :
    List AcOutput × AnalyzeClosuresEnv × InternedStateSetPool :=
  let (id, env) := analyzeStates f env (internedStateSetGetStateSet pool iss).toList
  let (outputs, pool) := buildOutput pool (env.pieces id)
  (outputs, env, pool)

/-! ## §3 The Invariant -/

variable {key : AnalysisKey}

/-- The table of destination sets, with room in it. -/
structure ToSetsValid (toSets : Interner (List ℕ)) : Prop where
  interner : Interner.Valid hashStateIds toSets
  room : toSets.items.length ≤ toSets.buckets.length

/-- What the cache says about a result. -/
def AnalysisKey.Means (f : Fsm) (env : AnalyzeClosuresEnv) (id : ℕ) : AnalysisKey → Prop
  | .singleState s => ∀ c t, Piece.Rel (env.pieces id) c t ↔ f.Edge s c t
  | .pair a b => a < env.results.length ∧ b < env.results.length ∧
      ∀ c t, Piece.Rel (env.pieces id) c t ↔
        Piece.Rel (env.pieces a) c t ∨ Piece.Rel (env.pieces b) c t

/-- Results are partitions, and the cache is right about them. -/
structure AnalyzeClosuresEnv.Valid (f : Fsm) (env : AnalyzeClosuresEnv) : Prop where
  toSets : ToSetsValid env.toSets
  toSet_lt : ∀ es ∈ env.results, ∀ e ∈ es, e.toSet < env.toSets.items.length
  partition : ∀ id < env.results.length, Partition (env.pieces id)
  htab_room : usedBuckets env.htab ≤ env.htab.length
  htab : ∃ m, Represents ResultPairBucket.key AnalysisKey.hash env.htab m ∧
    ∀ key b, m key = some b → b.resultId < env.results.length ∧ key.Means f env b.resultId

/-- Results and destination sets are only ever added. -/
structure AnalyzeClosuresEnv.Extends (env env' : AnalyzeClosuresEnv) : Prop where
  results : env.results <+: env'.results
  toSets : env.toSets.items <+: env'.toSets.items

namespace AnalyzeClosuresEnv

variable {f : Fsm} {env env' env'' : AnalyzeClosuresEnv}

theorem Extends.refl (env : AnalyzeClosuresEnv) : Extends env env :=
  ⟨prefix_rfl, prefix_rfl⟩

theorem Extends.trans (h : Extends env env') (h' : Extends env' env'') : Extends env env'' :=
  ⟨h.results.trans h'.results, h.toSets.trans h'.toSets⟩

theorem Extends.lt (h : Extends env env') (hid : id < env.results.length) :
    id < env'.results.length :=
  hid.trans_le h.results.length_le

theorem valid_init (f : Fsm) : Valid f {} where
  toSets := ⟨Interner.valid_empty 0, le_rfl⟩
  toSet_lt es hes := absurd hes not_mem_nil
  partition id hid := absurd hid (Nat.not_lt_zero id)
  htab_room := le_rfl
  htab := by
    refine ⟨fun _ => none, ?_, ?_⟩
    · exact Represents.replicate _ _ 0
    · intro key b hb
      cases hb

theorem Valid.pieces_eq (h : Valid f env) (hext : Extends env env')
    (hid : id < env.results.length) : env'.pieces id = env.pieces id := by
  obtain ⟨more, hmore⟩ := hext.results
  obtain ⟨moreSets, hsets⟩ := hext.toSets
  have hresult : env'.results.getD id [] = env.results.getD id [] := by
    rw [← hmore, getD_append _ _ _ _ hid]
  unfold pieces
  rw [hresult]
  apply map_congr_left
  intro e he
  rw [getD_eq_getElem _ _ hid] at he
  have hlt := h.toSet_lt _ (getElem_mem hid) e he
  rw [← hsets, getD_append _ _ _ _ hlt]

theorem Valid.means_mono (h : Valid f env) (hext : Extends env env')
    (hid : id < env.results.length) (hkey : key.Means f env id) : key.Means f env' id := by
  cases key with
  | singleState s =>
    intro c t
    rw [h.pieces_eq hext hid]
    exact hkey c t
  | pair a b =>
    obtain ⟨ha, hb, hrel⟩ := hkey
    refine ⟨hext.lt ha, hext.lt hb, fun c t => ?_⟩
    rw [h.pieces_eq hext hid, h.pieces_eq hext ha, h.pieces_eq hext hb]
    exact hrel c t

end AnalyzeClosuresEnv

theorem lt_grownCount {n count : ℕ} (h : n ≤ count) : n < grownCount count := by
  unfold grownCount
  split <;> omega

/-- Saving a set gives its index, and keeps all indices given before. -/
theorem saveToSet_spec {toSets : Interner (List ℕ)} (h : ToSetsValid toSets) (dst : List ℕ) :
    ToSetsValid (saveToSet toSets dst).2 ∧ toSets.items <+: (saveToSet toSets dst).2.items ∧
      (saveToSet toSets dst).2.items[(saveToSet toSets dst).1]? = some dst := by
  have hroom := h.room
  unfold saveToSet
  split
  · rename_i id hfind
    exact ⟨h, prefix_rfl, h.interner.find_eq_some_iff.mp hfind⟩
  · rename_i hfind
    obtain ⟨hvalid, hlt⟩ := h.interner.reserve (n := grownCount toSets.buckets.length)
      (p := toSets.buckets.length / 2 ≤ toSets.items.length)
      (fun _ => lt_grownCount hroom) (by omega)
    obtain ⟨hvalid', hlen⟩ := hvalid.add (a := dst) (h.interner.find_eq_none_iff.mp hfind) hlt
    refine ⟨⟨hvalid', ?_⟩, prefix_append _ _, ?_⟩
    · rw [hlen]
      show (toSets.items ++ [dst]).length ≤ _
      rw [length_append]
      exact hlt
    · show (toSets.items ++ [dst])[toSets.items.length]? = some dst
      simp

/-- The buffered entries stand for the pieces. -/
theorem bufferPieces_spec {toSets : Interner (List ℕ)} (h : ToSetsValid toSets)
    (ps : List Piece) :
    ToSetsValid (bufferPieces toSets ps).2 ∧
      toSets.items <+: (bufferPieces toSets ps).2.items ∧
      (∀ e ∈ (bufferPieces toSets ps).1, e.toSet < (bufferPieces toSets ps).2.items.length) ∧
      (bufferPieces toSets ps).1.map
        (fun e => Piece.mk ((bufferPieces toSets ps).2.items.getD e.toSet []) e.labels) = ps := by
  induction ps generalizing toSets with
  | nil => exact ⟨h, prefix_rfl, by simp [bufferPieces], rfl⟩
  | cons p ps ih =>
    obtain ⟨hsave, hext, hget⟩ := saveToSet_spec h p.dst
    obtain ⟨hvalid, hext', hlt, hmap⟩ := ih hsave
    unfold bufferPieces
    generalize saveToSet toSets p.dst = r at hsave hext hget hvalid hext' hlt hmap
    obtain ⟨id, toSets'⟩ := r
    dsimp only at hsave hext hget hvalid hext' hlt hmap ⊢
    generalize bufferPieces toSets' ps = r at hvalid hext' hlt hmap
    obtain ⟨buffer, toSets''⟩ := r
    -- the set saved for `p` is still there after the others
    have hget' : toSets''.items[id]? = some p.dst := by
      obtain ⟨more, hmore⟩ := hext'
      rw [← hmore, getElem?_append_left (List.getElem?_eq_some_iff.mp hget).1, hget]
    refine ⟨hvalid, hext.trans hext', ?_, ?_⟩
    · intro e he
      rcases mem_cons.mp he with rfl | he
      · exact (List.getElem?_eq_some_iff.mp hget').1
      · exact hlt e he
    · rw [map_cons, hmap, getD_eq_getElem?_getD, hget']
      rfl

namespace AnalyzeClosuresEnv

variable {f : Fsm} {env env' env'' : AnalyzeClosuresEnv}

/-- Committing adds a result with the given pieces. -/
theorem Valid.commitPieces (h : Valid f env) {ps : List Piece} (hps : Partition ps) :
    Valid f (commitPieces env ps).2 ∧ Extends env (commitPieces env ps).2 ∧
      (commitPieces env ps).1 < (commitPieces env ps).2.results.length ∧
      (commitPieces env ps).2.pieces (commitPieces env ps).1 = ps ∧
      (commitPieces env ps).2.htab = env.htab := by
  obtain ⟨hsets, hext, hlt, hmap⟩ := bufferPieces_spec h.toSets ps
  unfold Libfsm.commitPieces
  generalize bufferPieces env.toSets ps = r at hsets hext hlt hmap
  obtain ⟨buffer, toSets⟩ := r
  have hext' : Extends env
      { env with results := env.results ++ [buffer], toSets := toSets } :=
    ⟨prefix_append _ _, hext⟩
  have hlast : pieces { env with results := env.results ++ [buffer], toSets := toSets }
      env.results.length = ps := by
    unfold pieces
    simpa using hmap
  refine ⟨⟨hsets, ?_, ?_, h.htab_room, ?_⟩, hext', by simp, hlast, rfl⟩
  · intro es hes e he
    rcases mem_append.mp hes with hes | hes
    · exact (h.toSet_lt es hes e he).trans_le hext.length_le
    · rw [List.mem_singleton.mp hes] at he
      exact hlt e he
  · intro id hid
    rw [length_append] at hid
    rcases Nat.lt_succ_iff_lt_or_eq.mp hid with hid | rfl
    · rw [h.pieces_eq hext' hid]
      exact h.partition id hid
    · rw [hlast]
      exact hps
  · -- old results keep their meaning
    obtain ⟨m, hrep, hm⟩ := h.htab
    refine ⟨m, hrep, fun key b hb => ?_⟩
    obtain ⟨hid, hmeans⟩ := hm key b hb
    exact ⟨hext'.lt hid, h.means_mono hext' hid hmeans⟩

theorem Valid.means_of_check (h : Valid f env) (hcheck : analysisCacheCheck env key = some id) :
    id < env.results.length ∧ key.Means f env id := by
  obtain ⟨m, hrep, hm⟩ := h.htab
  unfold analysisCacheCheck at hcheck
  rw [hrep.lookup_eq key] at hcheck
  obtain ⟨b, hb, rfl⟩ := Option.map_eq_some_iff.mp hcheck
  exact hm key b hb

/-- Saving what is true of a result, under a key that is not in the cache. -/
theorem Valid.pairCacheSave (h : Valid f env) (hnew : analysisCacheCheck env key = none)
    (hid : id < env.results.length) (hkey : key.Means f env id) :
    Valid f (pairCacheSave env key id) := by
  obtain ⟨m, hrep, hm⟩ := h.htab
  have hroom := h.htab_room
  obtain ⟨hrep', hused, hlt⟩ := hrep.reserve (n := grownCount env.htab.length)
    (p := env.htab.length / 2 ≤ usedBuckets env.htab) (fun _ => lt_grownCount hroom) (by omega)
  have hnone : m key = none := by
    unfold analysisCacheCheck at hnew
    rwa [hrep.lookup_eq key, Option.map_eq_none_iff] at hnew
  obtain ⟨hrep'', hlen, hused'⟩ := hrep'.place (e := ⟨key, id⟩) hnone (hused.trans_lt hlt)
  refine ⟨h.toSets, h.toSet_lt, h.partition, ?_, ⟨_, hrep'', ?_⟩⟩
  · show usedBuckets (place _ _ _) ≤ (place _ _ _).length
    rw [hused', hlen, hused]
    exact hlt
  · intro key' b hb
    by_cases hkk : key' = key
    · subst hkk
      rw [Function.update_self, Option.some.injEq] at hb
      subst hb
      exact ⟨hid, hkey⟩
    · rw [Function.update_of_ne hkk] at hb
      exact hm key' b hb

end AnalyzeClosuresEnv

/-! ## §4 Correctness Of The Analysis -/

/-- The edges an entry stands for. -/
def AnalysisId.Rel (f : Fsm) (env : AnalyzeClosuresEnv) : AnalysisId → Byte → ℕ → Prop
  | .state s => f.Edge s
  | .result id => Piece.Rel (env.pieces id)

/-- The entry is a state, or the ID of a result. -/
def AnalysisId.Known (env : AnalyzeClosuresEnv) : AnalysisId → Prop
  | .state _ => True
  | .result id => id < env.results.length

/-- A step from `env` gave the ID of a result for the edges `E`. -/
structure Found (f : Fsm) (env : AnalyzeClosuresEnv) (E : Byte → ℕ → Prop)
    (r : ℕ × AnalyzeClosuresEnv) : Prop where
  valid : r.2.Valid f
  grows : env.Extends r.2
  lt : r.1 < r.2.results.length
  rel : ∀ c t, Piece.Rel (r.2.pieces r.1) c t ↔ E c t

theorem hasGroup_edgeSetGroups {set : EdgeSet} {c : Byte} {t : ℕ} :
    HasGroup (edgeSetGroups set) c t ↔ set.HasEdge c t := by
  constructor
  · intro ⟨g, hg, ht, hc⟩
    exact ⟨g, (mem_edgeSetGroups.mp hg).1, ht, hc⟩
  · intro ⟨g, hg, ht, hc⟩
    exact ⟨g, mem_edgeSetGroups.mpr ⟨hg, c, hc⟩, ht, hc⟩

theorem partition_of_state (f : Fsm) (s : ℕ) :
    Partition (partitionGroups (edgeSetGroups (f.state s).edges)) ∧
      ∀ c t, Piece.Rel (partitionGroups (edgeSetGroups (f.state s).edges)) c t ↔ f.Edge s c t := by
  have hasc : Ascending EdgeGroup.toState (edgeSetGroups (f.state s).edges) :=
    (EdgeSet.groups_ascending _).filter _
  obtain ⟨hpart, hrel⟩ := partitionGroups_spec hasc
  exact ⟨hpart, fun c t => (hrel c t).trans hasGroup_edgeSetGroups⟩

variable {env' : AnalyzeClosuresEnv} {i : AnalysisId}

section Steps

variable {f : Fsm} {env : AnalyzeClosuresEnv}

theorem AnalysisId.Known.mono (h : i.Known env) (hext : env.Extends env') : i.Known env' := by
  cases i with
  | state s => exact trivial
  | result id => exact hext.lt h

theorem AnalysisId.Known.rel_eq (h : i.Known env) (henv : env.Valid f) (hext : env.Extends env') :
    i.Rel f env' = i.Rel f env := by
  cases i with
  | state s => rfl
  | result id =>
    show Piece.Rel (env'.pieces id) = Piece.Rel (env.pieces id)
    rw [henv.pieces_eq hext h]

theorem cacheSingleStateAnalysis_found (henv : env.Valid f) {s : ℕ}
    (hnew : analysisCacheCheck env (.singleState s) = none) :
    Found f env (f.Edge s) (cacheSingleStateAnalysis f env s) := by
  obtain ⟨hpart, hrel⟩ := partition_of_state f s
  obtain ⟨hvalid, hext, hlt, hpieces, hhtab⟩ := henv.commitPieces hpart
  unfold cacheSingleStateAnalysis
  generalize commitPieces env (partitionGroups (edgeSetGroups (f.state s).edges)) = r
    at hvalid hext hlt hpieces hhtab
  obtain ⟨id, env'⟩ := r
  have hrel' : ∀ c t, Piece.Rel (env'.pieces id) c t ↔ f.Edge s c t := by
    rw [hpieces]
    exact hrel
  -- the commit has left the cache alone
  have hnew' : analysisCacheCheck env' (.singleState s) = none := by
    unfold analysisCacheCheck at hnew ⊢
    rwa [hhtab]
  exact ⟨hvalid.pairCacheSave hnew' hlt hrel', ⟨hext.results, hext.toSets⟩, hlt, hrel'⟩

theorem resultOf_found (henv : env.Valid f) (hi : i.Known env) :
    Found f env (i.Rel f env) (resultOf f env i) := by
  cases i with
  | result id => exact ⟨henv, .refl env, hi, fun c t => Iff.rfl⟩
  | state s =>
    simp only [resultOf]
    split
    · rename_i id hcheck
      obtain ⟨hlt, hmeans⟩ := henv.means_of_check hcheck
      exact ⟨henv, .refl env, hlt, hmeans⟩
    · rename_i hcheck
      exact cacheSingleStateAnalysis_found henv hcheck

/-- What a pair means does not depend on its order. -/
theorem means_ofPair {a b : ℕ} : (AnalysisKey.ofPair a b).Means f env id ↔
    a < env.results.length ∧ b < env.results.length ∧
      ∀ c t, Piece.Rel (env.pieces id) c t ↔
        Piece.Rel (env.pieces a) c t ∨ Piece.Rel (env.pieces b) c t := by
  unfold AnalysisKey.ofPair
  split
  · exact Iff.rfl
  · simp only [AnalysisKey.Means]
    rw [and_left_comm]
    simp only [or_comm]

theorem combinePair_found (henv : env.Valid f) {pa pb : AnalysisId} (ha : pa.Known env)
    (hb : pb.Known env) :
    Found f env (fun c t => pa.Rel f env c t ∨ pb.Rel f env c t) (combinePair f env pa pb) := by
  -- the results of both entries
  have hfa := resultOf_found henv ha
  unfold combinePair
  generalize resultOf f env pa = r at hfa
  obtain ⟨a, env₁⟩ := r
  have hfb := resultOf_found hfa.valid (hb.mono hfa.grows)
  rw [hb.rel_eq henv hfa.grows] at hfb
  dsimp only at hfb ⊢
  generalize resultOf f env₁ pb = r at hfb
  obtain ⟨b, env₂⟩ := r
  have hext := hfa.grows.trans hfb.grows
  have hlta : a < env₂.results.length := hfb.grows.lt hfa.lt
  have hrela : ∀ c t, Piece.Rel (env₂.pieces a) c t ↔ pa.Rel f env c t := by
    have heq : env₂.pieces a = env₁.pieces a := hfa.valid.pieces_eq hfb.grows hfa.lt
    rw [heq]
    exact hfa.rel
  dsimp only
  split
  · -- the pair is in the cache
    rename_i id hcheck
    obtain ⟨hlt, hmeans⟩ := hfb.valid.means_of_check hcheck
    obtain ⟨-, -, hrel⟩ := means_ofPair.mp hmeans
    refine ⟨hfb.valid, hext, hlt, fun c t => ?_⟩
    rw [← hrela, ← hfb.rel]
    exact hrel c t
  · rename_i hcheck
    obtain ⟨hpart, hrel⟩ := combinePieces_spec (hfb.valid.partition a hlta)
      (hfb.valid.partition b hfb.lt)
    obtain ⟨hvalid, hext₃, hlt, hpieces, hhtab⟩ := hfb.valid.commitPieces hpart
    generalize commitPieces env₂ (combinePieces (env₂.pieces a) (env₂.pieces b)) = r
      at hvalid hext₃ hlt hpieces hhtab
    obtain ⟨id, env₃⟩ := r
    have hnew : analysisCacheCheck env₃ (.ofPair a b) = none := by
      unfold analysisCacheCheck at hcheck ⊢
      rwa [hhtab]
    have hmeans : (AnalysisKey.ofPair a b).Means f env₃ id := by
      refine means_ofPair.mpr ⟨hext₃.lt hlta, hext₃.lt hfb.lt, fun c t => ?_⟩
      rw [hpieces, hfb.valid.pieces_eq hext₃ hlta, hfb.valid.pieces_eq hext₃ hfb.lt]
      exact hrel c t
    refine ⟨hvalid.pairCacheSave hnew hlt hmeans, ?_, hlt, fun c t => ?_⟩
    · exact ⟨hext.results.trans hext₃.results, hext.toSets.trans hext₃.toSets⟩
    · rw [← hrela, ← hfb.rel, ← hrel c t, ← hpieces]
      exact Iff.rfl

/-- One round keeps the edges of all entries together, and leaves half as many. -/
theorem combineRound_spec (henv : env.Valid f) {ids : List AnalysisId}
    (hids : ∀ i ∈ ids, i.Known env) :
    (combineRound f env ids).2.Valid f ∧ env.Extends (combineRound f env ids).2 ∧
      (∀ i ∈ (combineRound f env ids).1, i.Known (combineRound f env ids).2) ∧
      (∀ c t, (∃ i ∈ (combineRound f env ids).1, i.Rel f (combineRound f env ids).2 c t) ↔
        ∃ i ∈ ids, i.Rel f env c t) ∧
      (combineRound f env ids).1.length = (ids.length + 1) / 2 ∧
      (2 ≤ ids.length → ∃ id next, (combineRound f env ids).1 = .result id :: next) := by
  -- the induction takes two entries at a time
  induction ids using List.twoStepInduction generalizing env with
  | nil => exact ⟨henv, .refl env, hids, fun c t => Iff.rfl, by simp [combineRound], by simp⟩
  | singleton i =>
    exact ⟨henv, .refl env, hids, fun c t => Iff.rfl, by simp [combineRound], by simp⟩
  | cons_cons pa pb ids ih _ =>
    have hf := combinePair_found henv (hids pa mem_cons_self)
      (hids pb (mem_cons_of_mem _ mem_cons_self))
    unfold combineRound
    generalize combinePair f env pa pb = r at hf
    obtain ⟨id, env₁⟩ := r
    have hids' : ∀ i ∈ ids, i.Known env := fun i hi =>
      hids i (mem_cons_of_mem _ (mem_cons_of_mem _ hi))
    obtain ⟨hvalid, hext, hknown, hrel, hlen, -⟩ := ih hf.valid fun i hi =>
      (hids' i hi).mono hf.grows
    dsimp only at hvalid hext hknown hrel hlen ⊢
    generalize combineRound f env₁ ids = r at hvalid hext hknown hrel hlen
    obtain ⟨next, env₂⟩ := r
    have hold : ∀ c t, (∃ i ∈ ids, i.Rel f env₁ c t) ↔ ∃ i ∈ ids, i.Rel f env c t := by
      intro c t
      apply exists_congr
      intro i
      apply and_congr_right
      intro hi
      rw [(hids' i hi).rel_eq henv hf.grows]
    refine ⟨hvalid, hf.grows.trans hext, ?_, ?_, ?_, fun _ => ⟨id, next, rfl⟩⟩
    · intro i hi
      rcases mem_cons.mp hi with rfl | hi
      · exact hext.lt hf.lt
      · exact hknown i hi
    · intro c t
      have hhead : AnalysisId.Rel f env₂ (.result id) c t ↔
          pa.Rel f env c t ∨ pb.Rel f env c t := by
        show Piece.Rel (env₂.pieces id) c t ↔ _
        have heq : env₂.pieces id = env₁.pieces id := hf.valid.pieces_eq hext hf.lt
        rw [heq]
        exact hf.rel c t
      simp only [exists_mem_cons_iff, hhead, hrel, hold, or_assoc]
    · simp only [length_cons, hlen]
      omega

/-- Rounds end with one result for the edges of all entries. -/
theorem combineRounds_spec {fuel : ℕ} (henv : env.Valid f) {ids : List AnalysisId}
    (hids : ∀ i ∈ ids, i.Known env) (hpos : ids ≠ []) (hfuel : ids.length ≤ fuel + 1) :
    ∃ i, (combineRounds f fuel env ids).1 = [i] ∧ (combineRounds f fuel env ids).2.Valid f ∧
      env.Extends (combineRounds f fuel env ids).2 ∧ i.Known (combineRounds f fuel env ids).2 ∧
      (∀ c t, i.Rel f (combineRounds f fuel env ids).2 c t ↔ ∃ i ∈ ids, i.Rel f env c t) ∧
      ((2 ≤ ids.length ∨ ∃ id next, ids = .result id :: next) → ∃ id, i = .result id) := by
  have hone : ∀ {env : AnalyzeClosuresEnv} {ids : List AnalysisId}, env.Valid f →
      (∀ i ∈ ids, i.Known env) → ids ≠ [] → ids.length ≤ 1 → ∃ i, ids = [i] ∧ env.Valid f ∧
      env.Extends env ∧ i.Known env ∧ (∀ c t, i.Rel f env c t ↔ ∃ i ∈ ids, i.Rel f env c t) ∧
      ((2 ≤ ids.length ∨ ∃ id next, ids = .result id :: next) → ∃ id, i = .result id) := by
    intro env ids henv hids hpos hlen
    have hpos' := length_pos_iff.mpr hpos
    obtain ⟨i, rfl⟩ := length_eq_one_iff.mp (show ids.length = 1 by omega)
    refine ⟨i, rfl, henv, .refl env, hids i mem_cons_self, by simp, ?_⟩
    rintro (h | ⟨id, next, h⟩)
    · simp at h
    · exact ⟨id, (List.cons.inj h).1⟩
  induction fuel generalizing env ids with
  | zero => exact hone henv hids hpos hfuel
  | succ fuel ih =>
    unfold combineRounds
    split
    · rename_i hlen
      exact hone henv hids hpos hlen
    · obtain ⟨hvalid, hext, hknown, hrel, hlen', hhead⟩ := combineRound_spec henv hids
      -- a round halves the entries, and never leaves none
      obtain ⟨id, rest, hnext⟩ := hhead (by omega)
      obtain ⟨i, hi, hvalid', hext', hknown', hrel', hres⟩ := ih hvalid hknown
        (by rw [hnext]; exact cons_ne_nil _ _) (by omega)
      refine ⟨i, hi, hvalid', hext.trans hext', hknown', fun c t => ?_, fun _ => ?_⟩
      · rw [hrel', hrel]
      · exact hres (Or.inr ⟨id, rest, hnext⟩)

theorem analyzeStates_found (henv : env.Valid f) {states : List ℕ} (hpos : states ≠ []) :
    Found f env (fun c t => ∃ s ∈ states, f.Edge s c t) (analyzeStates f env states) := by
  unfold analyzeStates
  split
  · rename_i hlen
    obtain ⟨s, rfl⟩ := length_eq_one_iff.mp hlen
    obtain ⟨hvalid, hext, hlt, hrel⟩ := resultOf_found henv (i := .state s) trivial
    refine ⟨hvalid, hext, hlt, fun c t => (hrel c t).trans ?_⟩
    simp [AnalysisId.Rel]
  · have hlen' := length_pos_iff.mpr hpos
    have hids : ∀ i ∈ states.map AnalysisId.state, i.Known env := by
      intro i hi
      obtain ⟨s, -, rfl⟩ := mem_map.mp hi
      exact trivial
    have hfuel : (states.map AnalysisId.state).length ≤ states.length + 1 := by simp
    obtain ⟨i, hi, hvalid, hext, hknown, hrel, hres⟩ :=
      combineRounds_spec henv hids (by simpa using hpos) hfuel
    obtain ⟨id, rfl⟩ := hres (Or.inl (by rw [length_map]; omega))
    generalize combineRounds f states.length env (states.map .state) = r
      at hi hvalid hext hknown hrel
    obtain ⟨ids, env₁⟩ := r
    subst hi
    refine ⟨hvalid, hext, hknown, fun c t => (hrel c t).trans ?_⟩
    simp [AnalysisId.Rel]

end Steps

/-! ## §5 Outputs -/

variable {env : AnalyzeClosuresEnv}

theorem buildOutput_spec (hpool : pool.Valid) (ps : List Piece) :
    (buildOutput pool ps).2.Valid ∧ pool.items <+: (buildOutput pool ps).2.items ∧
      (∀ o ∈ (buildOutput pool ps).1, (buildOutput pool ps).2.Has o.iss) ∧
      (buildOutput pool ps).1.map
        (fun o => Piece.mk ((buildOutput pool ps).2.resolve o.iss) o.labels) = ps := by
  induction ps generalizing pool with
  | nil => exact ⟨hpool, prefix_rfl, by simp [buildOutput], rfl⟩
  | cons p ps ih =>
    obtain ⟨hvalid, hext, hhas, hres⟩ := internedStateSetInternSet_spec hpool p.dst
    obtain ⟨hvalid', hext', hhas', hmap⟩ := ih hvalid
    unfold buildOutput
    refine ⟨hvalid', hext.trans hext', ?_, ?_⟩
    · intro o ho
      rcases mem_cons.mp ho with rfl | ho
      · exact hhas.mono hext'
      · exact hhas' o ho
    · rw [map_cons, hmap, hhas.resolve_eq hext', hres]

/-- What one call of the analysis gives: the pool and the environment grow, and the outputs
partition the edges out of the set. -/
structure Analyzed (f : Fsm) (env : AnalyzeClosuresEnv) (pool : InternedStateSetPool)
    (states : List ℕ) (outputs : List AcOutput) (env' : AnalyzeClosuresEnv)
    (pool' : InternedStateSetPool) : Prop where
  env_valid : env'.Valid f
  pool_valid : pool'.Valid
  pool_grows : pool.items <+: pool'.items
  has : ∀ o ∈ outputs, pool'.Has o.iss
  partition : Partition (outputs.map fun o => ⟨pool'.resolve o.iss, o.labels⟩)
  rel : ∀ c t, Piece.Rel (outputs.map fun o => ⟨pool'.resolve o.iss, o.labels⟩) c t ↔
    ∃ s ∈ states, f.Edge s c t

theorem analyzeClosuresPairwiseGrouping_spec (henv : env.Valid f) (hpool : pool.Valid)
    {iss : InternedStateSetId} (hiss : pool.resolve iss ≠ []) :
    Analyzed f env pool (pool.resolve iss)
      (analyzeClosuresPairwiseGrouping f env pool iss).1
      (analyzeClosuresPairwiseGrouping f env pool iss).2.1
      (analyzeClosuresPairwiseGrouping f env pool iss).2.2 := by
  have hmem : ∀ s, s ∈ (internedStateSetGetStateSet pool iss).toList ↔ s ∈ pool.resolve iss :=
    fun s => mem_internedStateSetGetStateSet
  have hpos : (internedStateSetGetStateSet pool iss).toList ≠ [] := by
    obtain ⟨s, hs⟩ := exists_mem_of_ne_nil _ hiss
    exact ne_nil_of_mem ((hmem s).mpr hs)
  have hf := analyzeStates_found henv hpos
  unfold analyzeClosuresPairwiseGrouping
  generalize analyzeStates f env (internedStateSetGetStateSet pool iss).toList = r at hf
  obtain ⟨id, env'⟩ := r
  obtain ⟨hvalid, hext, hhas, hmap⟩ := buildOutput_spec hpool (env'.pieces id)
  refine ⟨hf.valid, hvalid, hext, hhas, ?_, fun c t => ?_⟩
  · rw [hmap]
    exact hf.valid.partition id hf.lt
  · rw [hmap]
    simpa only [hmem] using hf.rel c t

end Libfsm
