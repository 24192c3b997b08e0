import Libfsm.Adt.InternedStateSet
import Libfsm.Adt.PermutationVector
import Libfsm.Ops.Consolidate
import Libfsm.Ops.Trim

/-!
# Minimisation

`fsm_minimise`: a DFA is trimmed, its states are divided into equivalence classes (ECs) that are
split until nothing more can be split, and the states of each class become one.

An EC is a list of states, which the source links through `jump[]`; the EC of each state is kept
a second time in `state_ecs[]`.  ECs from `doneEcOffset` on have one state and are not looked at
again.

- `populateInitialEcs`: one EC for each distance to the nearest end state
- `splitEcsByEndMetadata`: end IDs and eager outputs divide these further
- `tryPartition`, `updateAfterPartition`: one attempt to split an EC on a label
- `buildMinimisedMapping`: the loop until no EC can be split
- `fsmMinimise`: the whole

`edge_set_check_edges_with_EC_mapping` leaves its label set as it was for a state without an edge
set, and its caller compares label sets all the same.  What was on the stack is the parameter
`stack`, one value for each label set that is declared.
-/

namespace Libfsm

open Lib Function

/-! ## §1 Equivalence Classes -/

/-- One entry of `ecs[]`: the flag `SMALL_EC_FLAG` and the states of the linked list.  In the source
the flag is the top bit of the number of the first state, so the two can be told apart as long as
there are at most `2 ^ 31` states. -/
structure Ec where
  small : Bool := false
  states : List ℕ := []
  deriving DecidableEq, Repr

/-- The fields of `struct min_env` that change. -/
structure MinEnv where
  /-- `ecs[0 .. ec_count)` -/
  ecs : List Ec
  /-- `state_ecs[]`, with `NO_ID` as `none` -/
  stateEcs : ℕ → Option ℕ
  doneEcOffset : ℕ
  /-- The number of label sets declared so far -/
  declared : ℕ

namespace MinEnv

/-- `ecs[i]` -/
def ec (env : MinEnv) (i : ℕ) : Ec := env.ecs.getD i {}

/-- Swap `ecs[i]` and `ecs[j]`. -/
def swapEcs (env : MinEnv) (i j : ℕ) : MinEnv :=
  { env with ecs := (env.ecs.set i (env.ec j)).set j (env.ec i) }

end MinEnv

def smallEcThreshold : ℕ := 16

def dfaLabelsThreshold : ℕ := 4

def updateEcLinks (dfaLabelCount : ℕ) (env : MinEnv) (ecDst : ℕ) : MinEnv :=
  let ec := env.ec ecDst
  let small := ec.small ||
    decide (ec.states.length ≤ smallEcThreshold ∧ dfaLabelsThreshold ≤ dfaLabelCount)
  { env with
    ecs := env.ecs.set ecDst { ec with small := small }
    stateEcs := ec.states.foldl (fun links cur => update links cur (some ecDst))
      env.stateEcs }

/-! ## §2 The First Classes -/

/-- The EC for each distance.  The ranks count from the end, so that large ECs come first. -/
def sedRanking (sedMax : ℕ) (counts : List ℕ) : List ℕ :=
  let pv := permutationVector (counts.foldl max 0) counts
  (permutationVector (sedMax + 1) pv).map fun rank => sedMax - rank

/-- Put state `i` at the head of an EC. -/
def pushState (env : MinEnv) (ec i : ℕ) : MinEnv :=
  { env with
    ecs := env.ecs.modify ec fun e => { e with states := i :: e.states }
    stateEcs := update env.stateEcs i (some ec) }

def populateInitialEcs (statecount : ℕ) (shortestEndDistance : List ℕ) : MinEnv :=
  let sedMax := shortestEndDistance.foldl max 0
  let sedLimit := sedMax + 1
  let counts := (List.range sedLimit).map fun sed => shortestEndDistance.count sed
  let ranking := sedRanking sedMax counts
  let env : MinEnv :=
    { ecs := List.replicate sedLimit {}, stateEcs := fun _ => none, doneEcOffset := 0,
      declared := 0 }
  let env := (List.range statecount).foldl (fun env i =>
    pushState env (ranking.getD (shortestEndDistance.getD i 0) 0) i) env
  let single (i : ℕ) : Bool :=
    decide (counts.getD (shortestEndDistance.getD ((env.ec i).states.headD 0) 0) 0 < 2)
  { env with doneEcOffset := ((List.range sedLimit).find? single).getD sedLimit }

/-! ## §3 End Metadata -/

/-- `struct end_metadata` -/
structure EndMetadata where
  endIds : List ℕ := []
  eagerOutputs : List ℕ := []
  deriving DecidableEq, Repr

/-- `collect_end_ids` and `collect_eager_output_ids` -/
def collectEndMetadata (f : Fsm) (s : ℕ) : EndMetadata where
  endIds := f.endidInfo.get s
  eagerOutputs := (f.eagerOutputInfo.get s).insertionSort (· ≤ ·)

/-- The test of the first pass, at which it leaves an EC. -/
def hasEndMetadata (f : Fsm) (s : ℕ) : Bool := fsmIsend f s || (f.state s).hasEagerOutputs

/-- The first pass of `split_ecs_by_end_metadata`: `end_md[]`.  The rest of an EC is skipped from
the first state on that has nothing to collect. -/
def collectPass (f : Fsm) (ecs : List Ec) : ℕ → EndMetadata :=
  ecs.foldl (fun endMd ec => (ec.states.takeWhile (hasEndMetadata f)).foldl
    (fun endMd s => update endMd s (collectEndMetadata f s)) endMd) fun _ => {}

/-- `incremental_hash_of_ids` over all IDs -/
def metadataHash (md : EndMetadata) : ℕ :=
  ((md.endIds ++ md.eagerOutputs).foldl (fun hash id => hash + hashId (UInt64.ofNat id)) 0).toNat

/-- The smallest power of two that is not below the number of states. -/
def bucketCountLoop : ℕ → ℕ → ℕ → ℕ
  | 0, bucketCount, _ => bucketCount
  | fuel + 1, bucketCount, stateCount =>
    if bucketCount < stateCount then bucketCountLoop fuel (2 * bucketCount) stateCount
    else bucketCount

/-- The state of the second pass inside of one EC: the hash table, the states that stay, and the
ECs behind. -/
structure SplitState where
  env : MinEnv
  htab : List (Option ℕ)
  kept : List ℕ

/-- Put `s` after `other` in a linked list. -/
def linkAfter (other s : ℕ) : List ℕ → List ℕ
  | [] => []
  | x :: xs => if x = other then x :: s :: xs else x :: linkAfter other s xs

/-- The second pass at one state: the EC it stays in or goes to. -/
def splitState (endMd : ℕ → EndMetadata) (ecI : ℕ) (st : SplitState) (s : ℕ) : SplitState :=
  match probe st.htab (metadataHash (endMd s)) fun other => endMd other == endMd s with
  -- there are at least as many buckets as states
  | none => { st with kept := st.kept ++ [s] }
  | some b =>
    match bucketAt st.htab b with
    | none =>
      let htab := st.htab.set b (some s)
      if st.kept = [] then { st with htab := htab, kept := [s] }
      else
        { st with
          htab := htab
          env :=
            { st.env with
              ecs := st.env.ecs ++ [{ states := [s] }]
              stateEcs := update st.env.stateEcs s (some st.env.ecs.length) } }
    | some other =>
      if st.env.stateEcs other = some ecI then { st with kept := st.kept ++ [s] }
      else
        let ec := (st.env.stateEcs other).getD 0
        { st with
          env :=
            { st.env with
              ecs := st.env.ecs.modify ec fun e => { e with states := linkAfter other s e.states }
              stateEcs := update st.env.stateEcs s (st.env.stateEcs other) } }

/-- The second pass at one EC. -/
def splitEc (endMd : ℕ → EndMetadata) (bucketCount : ℕ) (env : MinEnv) (ecI : ℕ) : MinEnv :=
  let r := (env.ec ecI).states.foldl (splitState endMd ecI)
    { env := env, htab := List.replicate bucketCount none, kept := [] }
  let env := { r.env with ecs := r.env.ecs.modify ecI fun e => { e with states := r.kept } }
  if r.kept.tail = [] ∧ ecI < env.doneEcOffset then { env with doneEcOffset := ecI } else env

/-- The sweep at one EC: one with a single state stays, others move before `doneEcOffset`. -/
def sweepEc (dfaLabelCount : ℕ) (env : MinEnv) (ecI : ℕ) : MinEnv :=
  let ec := env.ec ecI
  if ec.states.tail = [] then { env with ecs := env.ecs.set ecI { ec with small := true } }
  else
    let nEcI := env.doneEcOffset
    let env := env.swapEcs ecI nEcI
    let env := updateEcLinks dfaLabelCount env ecI
    let env := updateEcLinks dfaLabelCount env nEcI
    { env with doneEcOffset := nEcI + 1 }

def splitEcsByEndMetadata (dfaLabelCount : ℕ) (f : Fsm) (env : MinEnv) : MinEnv :=
  let endMd := collectPass f env.ecs
  let bucketCount := bucketCountLoop f.statecount 1 f.statecount
  let env := (List.range env.ecs.length).foldl (splitEc endMd bucketCount) env
  (List.range' env.doneEcOffset (env.ecs.length - env.doneEcOffset)).foldl
    (sweepEc dfaLabelCount) env

/-! ## §4 Splitting On A Label -/

/-- `edge_set_check_edges_with_EC_mapping`: the destination on a label, and the label set
afterwards. -/
def edgeSetCheckEdgesWithEcMapping (set : EdgeSet) (label : Byte) (stateEcs : ℕ → Option ℕ)
    (labels : Symbols) : Option ℕ × Symbols :=
  match set with
  -- nothing is written to `labels` for a NULL set
  | .null => (none, labels)
  | .array gs =>
    match gs.entries.find? fun eg => eg.has label with
    | none => (none, 0)
    | some first => (some first.toState, gs.entries.foldl (fun labels eg =>
        if stateEcs eg.toState = stateEcs first.toState then labels ||| eg.symbols else labels) 0)

/-- The destination and the label set of a state, for the label set declared as number
`declared`. -/
def checkState (stack : ℕ → Symbols) (f : Fsm) (stateEcs : ℕ → Option ℕ) (label : Byte)
    (cur declared : ℕ) : Option ℕ × Symbols :=
  edgeSetCheckEdgesWithEcMapping (f.state cur).edges label stateEcs (stack declared)

/-- The comparison with the first state of the EC: the ECs of the destinations, and the label
sets. -/
def matchesFirst (stack : ℕ → Symbols) (f : Fsm) (stateEcs : ℕ → Option ℕ) (label : Byte)
    (first : Option ℕ × Symbols) (e : ℕ × ℕ) : Bool :=
  let r := checkState stack f stateEcs label e.1 e.2
  decide (r.1.bind stateEcs = first.1.bind stateEcs ∧ r.2 = first.2)

/-- `try_partition`: the environment, the sizes of the two parts, and the labels that need not be
checked any more. -/
def tryPartition (stack : ℕ → Symbols) (f : Fsm) (env : MinEnv) (label : Byte) (ecSrc : ℕ) :
    MinEnv × ℕ × ℕ × Symbols :=
  match (env.ec ecSrc).states with
  | [] => (env, 0, 0, 0)
  | first :: rest =>
    let r := checkState stack f env.stateEcs label first env.declared
    let same := matchesFirst stack f env.stateEcs label r
    let rest := rest.zipIdx (env.declared + 1)
    let kept := first :: (rest.filter same).map Prod.fst
    -- each state that leaves becomes the head of the new list
    let unlinked := ((rest.filter fun e => !same e).map Prod.fst).reverse
    let ecs := env.ecs.modify ecSrc fun e => { e with states := kept }
    ({ env with
        ecs := if unlinked = [] then ecs else ecs ++ [{ states := unlinked }]
        declared := env.declared + 1 + rest.length },
      kept.length, unlinked.length, if r.1.isSome then r.2 else 0)

/-- `update_after_partition`: the environment, and whether the EC at `ecSrc` is another one
now. -/
def updateAfterPartition (dfaLabelCount : ℕ) (env : MinEnv) (srcCount dstCount ecSrc ecDst : ℕ) :
    MinEnv × Bool :=
  let env :=
    if dstCount = 1 then updateEcLinks dfaLabelCount env ecDst
    else
      let ndst := env.doneEcOffset
      let env := env.swapEcs ecDst ndst
      let env := updateEcLinks dfaLabelCount env ecDst
      let env := updateEcLinks dfaLabelCount env ndst
      { env with doneEcOffset := ndst + 1 }
  if srcCount = 1 ∧ 0 < env.doneEcOffset then
    let nsrc := env.doneEcOffset - 1
    let env := env.swapEcs ecSrc nsrc
    let env := updateEcLinks dfaLabelCount env ecSrc
    let env := updateEcLinks dfaLabelCount env nsrc
    ({ env with doneEcOffset := nsrc }, true)
  else (env, false)

/-! ## §5 The Loop -/

/-- The labels on the edges of some states. -/
def labelSet (f : Fsm) (states : List ℕ) : Symbols :=
  states.foldl (fun set s =>
    (edgeSetGroups (f.state s).edges).foldl (fun set g => set ||| g.symbols) set) 0

/-- A label set as an array. -/
def labelsOf (set : Symbols) : List Byte := (List.finRange 256).filter fun c => set.getLsbD c

def collectLabels (f : Fsm) : List Byte := labelsOf (labelSet f (List.range f.statecount))

section Loop

variable (stack : ℕ → Symbols) (f : Fsm) (dfaLabels : List Byte)

/-- The loop over the labels of an EC: the environment, whether anything was split, and whether
the EC is to be started again. -/
def ecLabelLoop (ecI : ℕ) : List Byte → Symbols → MinEnv → MinEnv × Bool × Bool
  | [], _, env => (env, false, false)
  | label :: labels, checkedLabels, env =>
    if checkedLabels.getLsbD label then ecLabelLoop ecI labels checkedLabels env
    else
      let ecDst := env.ecs.length
      let (env, srcCount, dstCount, checked) := tryPartition stack f env label ecI
      if 0 < dstCount then
        let (env, restart) :=
          updateAfterPartition dfaLabels.length env srcCount dstCount ecI ecDst
        if restart then (env, true, true)
        else
          let (env, _, restart) := ecLabelLoop ecI labels (checkedLabels ||| checked) env
          (env, true, restart)
      else ecLabelLoop ecI labels (checkedLabels ||| checked) env

/-- The body of the loop over the ECs, from the label `restart_EC` on. -/
def restartEc (ecI : ℕ) (env : MinEnv) : MinEnv × Bool × Bool :=
  let ec := env.ec ecI
  if ec.states.tail = [] then (env, false, false)
  else
    ecLabelLoop stack f dfaLabels ecI
      -- `init_label_iterator` gathers the labels of a small EC
      (if ec.small then labelsOf (labelSet f ec.states) else dfaLabels) 0 env

/-- The loop over the ECs that are not done. -/
def ecLoop : ℕ → ℕ → Bool → MinEnv → Option (MinEnv × Bool)
  | 0, _, _, _ => none
  | fuel + 1, ecI, changed, env =>
    if ecI < env.doneEcOffset then
      let (env, split, restart) := restartEc stack f dfaLabels ecI env
      ecLoop fuel (if restart then ecI else ecI + 1) (changed || split) env
    else some (env, changed)

/-- The loop until nothing changes. -/
def minimiseLoop : ℕ → MinEnv → Option MinEnv
  | 0, _ => none
  | fuel + 1, env =>
    (ecLoop stack f dfaLabels (2 * f.statecount + 1) 0 false env).bind
      fun (env, changed) => if changed then minimiseLoop fuel env else some env

/-- `build_minimised_mapping`: the mapping and the number of states in it. -/
def buildMinimisedMapping (shortestEndDistance : List ℕ) : Option ((ℕ → ℕ) × ℕ) :=
  let env := populateInitialEcs f.statecount shortestEndDistance
  let env := splitEcsByEndMetadata dfaLabels.length f env
  (minimiseLoop stack f dfaLabels (f.statecount + 1) env).map fun env =>
    let ecOffset := if (env.ec 0).states = [] then 1 else 0
    let mapping := (List.range' ecOffset (env.ecs.length - ecOffset)).foldl (fun mapping i =>
      (env.ec i).states.foldl (fun mapping cur =>
        update mapping cur (i - ecOffset)) mapping) fun _ => 0
    (mapping, env.ecs.length - ecOffset)

end Loop

/-! ## §6 The Whole -/

/-- The loop of `fsm_vacuum`. -/
def vacuumLoop : ℕ → ℕ → ℕ → ℕ
  | 0, nceil, _ => nceil
  | fuel + 1, nceil, statecount =>
    if statecount < nceil / 2 ∧ 1 < nceil then vacuumLoop fuel (nceil / 2) statecount else nceil

def fsmVacuum (f : Fsm) : Fsm :=
  { f with statealloc := vacuumLoop f.statealloc f.statealloc f.statecount }

def fsmMinimise (stack : ℕ → Symbols) (f : Fsm) : Option Fsm :=
  let r := fsmTrim f .startAndEndReachable
  let fsm := r.fsm
  if fsm.statecount = 0 then some fsm
  else
    let labels := collectLabels fsm
    if labels.length = 0 then some fsm
    else
      -- all distances of a trimmed FSM are set, which is asserted
      (buildMinimisedMapping stack fsm labels (r.sed.map fun sed => sed.getD 0)).map
        fun (mapping, _) => fsmVacuum (fsmConsolidate fsm mapping fsm.statecount)

end Libfsm
