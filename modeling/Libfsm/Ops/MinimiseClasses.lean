import Libfsm.Lib.ClassLists
import Libfsm.Ops.DstBuf
import Libfsm.Ops.Minimise

/-!
# The Equivalence Classes Of The Minimiser

What every step of `build_minimised_mapping` keeps: the ECs divide the states, `state_ecs[]` says
for each state the EC it is in, and ECs from `doneEcOffset` on have one state.

- `EcLinked`: ECs and `state_ecs[]` fit together
- `EcInv`: the invariant of the loop
- `populateInitialEcs_spec`: first, states are together that are equally far from an end
- `splitEcsByEndMetadata_spec`: then, those of them with the same metadata
- `updateAfterPartition_spec`: the bookkeeping after a split
-/

namespace Libfsm

open Lib Option
open List hiding nil cons length set foldl replicate

variable {c : List ℕ} {s : ℕ}

/-! ## §1 Links -/

namespace MinEnv

/-- The lists of states. -/
def classes (env : MinEnv) : List (List ℕ) := env.ecs.map Ec.states

@[simp] theorem length_classes (env : MinEnv) : env.classes.length = env.ecs.length :=
  length_map _

variable {env : MinEnv} {i j : ℕ}

theorem getElem?_classes (hi : i < env.ecs.length) :
    env.classes[i]? = some (env.ec i).states := by
  rw [classes, getElem?_map, ec, getD_eq_getElem?_getD, getElem?_eq_getElem hi]
  rfl

theorem lt_of_getElem?_classes (h : env.classes[i]? = some c) : i < env.ecs.length := by
  rw [← length_classes]
  exact (List.getElem?_eq_some_iff.mp h).1

theorem ec_states (h : env.classes[i]? = some c) : (env.ec i).states = c := by
  have hsome := getElem?_classes (lt_of_getElem?_classes h)
  rw [h] at hsome
  exact (some.inj hsome).symm

theorem ec_mem (hi : i < env.ecs.length) : (env.ec i).states ∈ env.classes :=
  mem_of_getElem? (getElem?_classes hi)

theorem map_states_modify (ecs : List Ec) (i : ℕ) (g : List ℕ → List ℕ) :
    (ecs.modify i fun e => { e with states := g e.states }).map Ec.states =
      (ecs.map Ec.states).modify i g := by
  apply ext_getElem?
  intro j
  rw [getElem?_map, getElem?_modify, getElem?_modify, getElem?_map]
  cases ecs[j]? with
  | none => rfl
  | some e => by_cases hj : i = j <;> simp [hj]

theorem classes_swapEcs (env : MinEnv) (i j : ℕ) : (env.swapEcs i j).classes =
    (env.classes.set i (env.ec j).states).set j (env.ec i).states := by
  rw [classes, swapEcs, map_set, map_set]
  rfl

end MinEnv

section Links

variable {n k : ℕ} {env : MinEnv} {D : Set ℕ} {i j : ℕ}

@[simp] theorem classes_updateEcLinks (k : ℕ) (env : MinEnv) (i : ℕ) :
    (updateEcLinks k env i).classes = env.classes := by
  rw [MinEnv.classes, updateEcLinks, map_set, ← MinEnv.classes]
  rcases lt_or_ge i env.ecs.length with hi | hi
  · have hget : env.classes[i]? = some (env.ec i).states := MinEnv.getElem?_classes hi
    obtain ⟨hlt, hval⟩ := List.getElem?_eq_some_iff.mp hget
    rw [← hval, set_getElem_self]
  · exact set_eq_of_length_le (by simpa using hi)

theorem stateEcs_updateEcLinks (k : ℕ) (env : MinEnv) (i s : ℕ) :
    (updateEcLinks k env i).stateEcs s =
      if s ∈ (env.ec i).states then some i else env.stateEcs s := by
  exact foldl_update_eq (fun _ => some i) _ _ _

@[simp] theorem length_ecs_updateEcLinks (k : ℕ) (env : MinEnv) (i : ℕ) :
    (updateEcLinks k env i).ecs.length = env.ecs.length :=
  length_set

/-- ECs and `state_ecs[]` fit together, except for the ECs of `D`. -/
structure EcLinkedExcept (n : ℕ) (D : Set ℕ) (env : MinEnv) : Prop where
  divides : Divides n env.classes
  link : ∀ {i c}, i ∉ D → env.classes[i]? = some c → ∀ s ∈ c, env.stateEcs s = some i
  dead : ∀ s, n ≤ s → env.stateEcs s = none

/-- ECs and `state_ecs[]` fit together. -/
abbrev EcLinked (n : ℕ) (env : MinEnv) : Prop := EcLinkedExcept n ∅ env

theorem EcLinkedExcept.congr {env' : MinEnv} (h : EcLinkedExcept n D env)
    (hclasses : env'.classes = env.classes) (hlinks : env'.stateEcs = env.stateEcs) :
    EcLinkedExcept n D env' :=
  ⟨hclasses ▸ h.divides, by rw [hclasses, hlinks]; exact h.link, hlinks ▸ h.dead⟩

theorem EcLinkedExcept.update {D' : Set ℕ} (h : EcLinkedExcept n D' env)
    (hD : ∀ l ∈ D', l = i ∨ l ∈ D) (hi : i < env.ecs.length) (k : ℕ) :
    EcLinkedExcept n D (updateEcLinks k env i) := by
  have hclass := MinEnv.getElem?_classes hi
  refine ⟨by rw [classes_updateEcLinks]; exact h.divides, fun {j c} hj hc s hs => ?_,
    fun s hs => ?_⟩
  · rw [classes_updateEcLinks] at hc
    rw [stateEcs_updateEcLinks]
    by_cases hji : j = i
    · subst hji
      rw [hclass] at hc
      rw [if_pos ((some.inj hc).symm ▸ hs)]
    · rw [if_neg fun hsi => hji (h.divides.index_eq hc hclass hs hsi)]
      exact h.link (fun hmem => (hD j hmem).elim hji hj) hc s hs
  · rw [stateEcs_updateEcLinks, if_neg, h.dead s hs]
    intro hsi
    exact absurd (h.divides.lt (MinEnv.ec_mem hi) hsi) (Nat.not_lt_of_ge hs)

theorem EcLinkedExcept.swap (h : EcLinkedExcept n D env) (hi : i < env.ecs.length)
    (hj : j < env.ecs.length) : EcLinkedExcept n (insert i (insert j D)) (env.swapEcs i j) := by
  have hperm : (env.swapEcs i j).classes.Perm env.classes := by
    rw [MinEnv.classes_swapEcs]
    exact perm_swap (MinEnv.getElem?_classes hi) (MinEnv.getElem?_classes hj)
  refine ⟨h.divides.congr hperm, fun {l c} hl hc => ?_, h.dead⟩
  have hli : i ≠ l := fun heq => hl (Set.mem_insert_iff.mpr (.inl heq.symm))
  have hlj : j ≠ l := fun heq =>
    hl (Set.mem_insert_of_mem _ (Set.mem_insert_iff.mpr (.inl heq.symm)))
  rw [MinEnv.classes_swapEcs, getElem?_set_ne hlj, getElem?_set_ne hli] at hc
  exact h.link (fun hmem => hl (Set.mem_insert_of_mem _ (Set.mem_insert_of_mem _ hmem))) hc

/-- Two ECs change places and are linked again. -/
def moveEc (k : ℕ) (env : MinEnv) (i j : ℕ) : MinEnv :=
  updateEcLinks k (updateEcLinks k (env.swapEcs i j) i) j

theorem classes_moveEc (k : ℕ) (env : MinEnv) (i j : ℕ) : (moveEc k env i j).classes =
    (env.classes.set i (env.ec j).states).set j (env.ec i).states := by
  rw [moveEc, classes_updateEcLinks, classes_updateEcLinks, MinEnv.classes_swapEcs]

@[simp] theorem length_ecs_moveEc (k : ℕ) (env : MinEnv) (i j : ℕ) :
    (moveEc k env i j).ecs.length = env.ecs.length := by
  simp [moveEc, MinEnv.swapEcs]

theorem getElem?_classes_moveEc {l : ℕ} (k : ℕ) (hi : i < env.ecs.length)
    (hj : j < env.ecs.length) : (moveEc k env i j).classes[l]? =
      if l = j then some (env.ec i).states
      else if l = i then some (env.ec j).states else env.classes[l]? := by
  rw [classes_moveEc, getElem?_set, getElem?_set, length_set, MinEnv.length_classes,
    if_pos hi, if_pos hj]
  simp only [eq_comm (a := l)]

theorem perm_moveEc (k : ℕ) (hi : i < env.ecs.length) (hj : j < env.ecs.length) :
    (moveEc k env i j).classes.Perm env.classes := by
  rw [classes_moveEc]
  exact perm_swap (MinEnv.getElem?_classes hi) (MinEnv.getElem?_classes hj)

/-- **Moving** makes up for links that are missing for the two. -/
theorem EcLinkedExcept.move (h : EcLinkedExcept n D env) (hD : ∀ l ∈ D, l = i ∨ l = j)
    (hi : i < env.ecs.length) (hj : j < env.ecs.length) (k : ℕ) :
    EcLinked n (moveEc k env i j) := by
  have hlen : (env.swapEcs i j).ecs.length = env.ecs.length := by simp [MinEnv.swapEcs]
  have hfirst : EcLinkedExcept n {j} (updateEcLinks k (env.swapEcs i j) i) := by
    apply (h.swap hi hj).update _ (hlen.symm ▸ hi)
    intro l hl
    rcases hl with hl | hl | hl
    · exact .inl hl
    · exact .inr hl
    · exact hD l hl
  apply hfirst.update
  · exact fun l hl => .inl hl
  · rw [length_ecs_updateEcLinks, hlen]
    exact hj

namespace EcLinkedExcept

variable (h : EcLinked n env)
include h

theorem stateEcs_eq_some_iff : env.stateEcs s = some i ↔ ∃ c, env.classes[i]? = some c ∧ s ∈ c := by
  constructor
  · intro hs
    have hlt : s < n := by
      by_contra hge
      rw [h.dead s (Nat.le_of_not_lt hge)] at hs
      cases hs
    obtain ⟨c, hc, hsc⟩ := h.divides.exists_mem_iff.mpr hlt
    obtain ⟨j, hj⟩ := mem_iff_getElem?.mp hc
    rw [h.link (Set.notMem_empty j) hj s hsc] at hs
    exact ⟨c, some.inj hs ▸ hj, hsc⟩
  · intro ⟨c, hc, hsc⟩
    exact h.link (Set.notMem_empty i) hc s hsc

theorem exists_stateEcs (hs : s < n) : ∃ i, env.stateEcs s = some i := by
  obtain ⟨c, hc, hsc⟩ := h.divides.exists_mem_iff.mpr hs
  obtain ⟨i, hi⟩ := mem_iff_getElem?.mp hc
  exact ⟨i, h.stateEcs_eq_some_iff.mpr ⟨c, hi, hsc⟩⟩

/-- `state_ecs[]` says which states are together. -/
theorem stateEcs_eq_iff {t : ℕ} (hs : s < n) :
    env.stateEcs s = env.stateEcs t ↔ Together env.classes s t := by
  constructor
  · intro heq
    obtain ⟨i, hi⟩ := h.exists_stateEcs hs
    obtain ⟨c, hc, hsc⟩ := h.stateEcs_eq_some_iff.mp hi
    rw [heq] at hi
    obtain ⟨d, hd, htd⟩ := h.stateEcs_eq_some_iff.mp hi
    rw [hc] at hd
    exact ⟨c, mem_of_getElem? hc, hsc, (some.inj hd).symm ▸ htd⟩
  · intro ⟨c, hc, hsc, htc⟩
    obtain ⟨i, hi⟩ := mem_iff_getElem?.mp hc
    rw [h.stateEcs_eq_some_iff.mpr ⟨c, hi, hsc⟩, h.stateEcs_eq_some_iff.mpr ⟨c, hi, htc⟩]

end EcLinkedExcept

end Links

/-! ## §2 The Bookkeeping After A Split -/

/-- **The invariant** of the loop. -/
structure EcInv (n : ℕ) (env : MinEnv) : Prop where
  linked : EcLinked n env
  done_le : env.doneEcOffset ≤ env.ecs.length
  single : ∀ {i c}, env.doneEcOffset ≤ i → env.classes[i]? = some c → c.tail = []

section Update

variable {n : ℕ} {env : MinEnv}

/-- What the first half of `update_after_partition` leaves for the second. -/
structure DstPlaced (n ecSrc ecDst : ℕ) (env env' : MinEnv) : Prop extends EcInv n env' where
  length : env'.ecs.length = env.ecs.length
  perm : env'.classes.Perm env.classes
  src : ecSrc < env'.doneEcOffset ∧ env'.classes[ecSrc]? = env.classes[ecSrc]?

theorem dstPlaced {ecSrc ecDst dstCount : ℕ} (k : ℕ) (h : EcLinkedExcept n {ecDst} env)
    (hlen : env.ecs.length = ecDst + 1) (hsrc : ecSrc < env.doneEcOffset)
    (hdone : env.doneEcOffset ≤ ecDst)
    (hsingle : ∀ {i c}, env.doneEcOffset ≤ i → i ≠ ecDst → env.classes[i]? = some c → c.tail = [])
    (hcount : dstCount = (env.ec ecDst).states.length) :
    DstPlaced n ecSrc ecDst env (if dstCount = 1 then updateEcLinks k env ecDst
      else { moveEc k env ecDst env.doneEcOffset with
        doneEcOffset := env.doneEcOffset + 1 }) := by
  have hdst : ecDst < env.ecs.length := hlen ▸ Nat.lt_succ_self ecDst
  have hndst : env.doneEcOffset < env.ecs.length := hdone.trans_lt hdst
  split
  · -- the new EC has one state and stays at the end
    rename_i hone
    refine ⟨⟨?_, ?_, fun {i c} hi hc => ?_⟩, length_ecs_updateEcLinks k env ecDst, ?_, ?_⟩
    · exact h.update (fun l hl => .inl hl) hdst k
    · rw [length_ecs_updateEcLinks]
      exact hdone.trans hdst.le
    · rw [classes_updateEcLinks] at hc
      by_cases hid : i = ecDst
      · rw [hid, MinEnv.getElem?_classes hdst] at hc
        rw [← some.inj hc, ← length_eq_zero_iff, length_tail, ← hcount, hone]
      · exact hsingle hi hid hc
    · rw [classes_updateEcLinks]
    · exact ⟨hsrc, by rw [classes_updateEcLinks]⟩
  · -- it goes before the ECs that are done
    refine ⟨⟨?_, ?_, fun {i c} hi hc => ?_⟩, length_ecs_moveEc k env _ _,
      perm_moveEc k hdst hndst, ⟨Nat.lt_succ_of_lt hsrc, ?_⟩⟩
    · exact (h.move (fun l hl => .inl hl) hdst hndst k).congr rfl rfl
    · exact (length_ecs_moveEc k env _ _).symm ▸ hndst
    · have hi : env.doneEcOffset < i := hi
      have hc : (moveEc k env ecDst env.doneEcOffset).classes[i]? = some c := hc
      rw [getElem?_classes_moveEc k hdst hndst, if_neg hi.ne'] at hc
      split at hc
      · rename_i hid
        -- what stood at the offset was done, unless it was the new EC itself
        have hne : env.doneEcOffset ≠ ecDst := fun heq => hi.ne (heq.trans hid.symm)
        exact hsingle le_rfl hne ((MinEnv.getElem?_classes hndst).trans hc)
      · rename_i hid
        exact hsingle hi.le hid hc
    · change (moveEc k env ecDst env.doneEcOffset).classes[ecSrc]? = _
      rw [getElem?_classes_moveEc k hdst hndst, if_neg hsrc.ne, if_neg (hsrc.trans_le hdone).ne]

/-- **After a split** the invariant holds again; the EC that was split is where it was, unless it
is to be started again. -/
theorem updateAfterPartition_spec {ecSrc ecDst : ℕ} (srcCount dstCount k : ℕ)
    (h : EcLinkedExcept n {ecDst} env) (hlen : env.ecs.length = ecDst + 1)
    (hsrc : ecSrc < env.doneEcOffset) (hdone : env.doneEcOffset ≤ ecDst)
    (hsingle : ∀ {i c}, env.doneEcOffset ≤ i → i ≠ ecDst → env.classes[i]? = some c → c.tail = [])
    (hdst : dstCount = (env.ec ecDst).states.length)
    (hsrcCount : srcCount = (env.ec ecSrc).states.length) :
    let r := updateAfterPartition k env srcCount dstCount ecSrc ecDst
    EcInv n r.1 ∧ r.1.ecs.length = env.ecs.length ∧ r.1.classes.Perm env.classes ∧
      (r.2 = false → ecSrc < r.1.doneEcOffset ∧ r.1.classes[ecSrc]? = env.classes[ecSrc]?) := by
  have hplaced := dstPlaced k h hlen hsrc hdone hsingle hdst
  set env₁ := if dstCount = 1 then updateEcLinks k env ecDst
    else { moveEc k env ecDst env.doneEcOffset with doneEcOffset := env.doneEcOffset + 1 }
    with henv₁
  have hr : updateAfterPartition k env srcCount dstCount ecSrc ecDst =
      if srcCount = 1 ∧ 0 < env₁.doneEcOffset then
        ({ moveEc k env₁ ecSrc (env₁.doneEcOffset - 1) with
          doneEcOffset := env₁.doneEcOffset - 1 }, true)
      else (env₁, false) := rfl
  rw [hr]
  split
  · rename_i hone
    have hsrc₁ := hplaced.src.1
    have hsrcLt : ecSrc < env₁.ecs.length := hsrc₁.trans_le hplaced.done_le
    have hnsrc : env₁.doneEcOffset - 1 < env₁.ecs.length :=
      (Nat.sub_lt hone.2 Nat.zero_lt_one).trans_le hplaced.done_le
    refine ⟨⟨?_, ?_, fun {i c} hi hc => ?_⟩, ?_, ?_, fun hfalse => ?_⟩
    · exact (hplaced.linked.move (fun l hl => absurd hl (Set.notMem_empty l)) hsrcLt hnsrc
        k).congr rfl rfl
    · exact (length_ecs_moveEc k env₁ _ _).symm ▸ hnsrc.le
    · have hi : env₁.doneEcOffset - 1 ≤ i := hi
      have hc : (moveEc k env₁ ecSrc (env₁.doneEcOffset - 1)).classes[i]? = some c := hc
      rw [getElem?_classes_moveEc k hsrcLt hnsrc] at hc
      split at hc
      · -- the EC that was split has one state left
        have hstates : (env₁.ec ecSrc).states = (env.ec ecSrc).states := by
          apply MinEnv.ec_states
          rw [hplaced.src.2, MinEnv.getElem?_classes (hplaced.length ▸ hsrcLt)]
        rw [← some.inj hc, hstates, ← length_eq_zero_iff, length_tail, ← hsrcCount, hone.1]
      · rw [if_neg (by omega)] at hc
        exact hplaced.single (by omega) hc
    · exact (length_ecs_moveEc k env₁ _ _).trans hplaced.length
    · exact (perm_moveEc k hsrcLt hnsrc).trans hplaced.perm
    · cases hfalse
  · exact ⟨hplaced.toEcInv, hplaced.length, hplaced.perm, fun _ => hplaced.src⟩

end Update

/-! ## §3 The First Classes -/

/-- Different distances get different ECs, those of more states first. -/
theorem sedRanking_spec {sedMax : ℕ} {counts : List ℕ} (hlen : counts.length = sedMax + 1) :
    (∀ d ≤ sedMax, (sedRanking sedMax counts).getD d 0 ≤ sedMax) ∧
      (∀ d ≤ sedMax, ∀ d' ≤ sedMax,
        (sedRanking sedMax counts).getD d 0 = (sedRanking sedMax counts).getD d' 0 → d = d') ∧
      ∀ d ≤ sedMax, ∀ d' ≤ sedMax,
        (sedRanking sedMax counts).getD d 0 < (sedRanking sedMax counts).getD d' 0 →
          counts.getD d' 0 ≤ counts.getD d 0 := by
  have hmax : ∀ v ∈ counts, v ≤ counts.foldl max 0 := (le_foldl_max id counts 0).2
  have hperm := permutationVector_perm hmax
  have hsorted := permutationVector_sorted hmax
  rw [hlen] at hperm
  -- the rank of a distance is its place in the permutation vector
  have hrank : ∀ d ≤ sedMax, ∃ r ≤ sedMax,
      (permutationVector (counts.foldl max 0) counts)[r]? = some d ∧
      (sedRanking sedMax counts).getD d 0 = sedMax - r := by
    intro d hd
    obtain ⟨r, hr⟩ := mem_iff_getElem?.mp
      (hperm.mem_iff.mpr (mem_range.mpr (Nat.lt_succ_of_le hd)))
    have hlt := (List.getElem?_eq_some_iff.mp hr).1
    rw [hperm.length_eq, length_range] at hlt
    refine ⟨r, Nat.le_of_lt_succ hlt, hr, ?_⟩
    change ((permutationVector (sedMax + 1) _).map fun rank => sedMax - rank).getD d 0 = _
    have hle : ∀ v ∈ permutationVector (counts.foldl max 0) counts, v ≤ sedMax + 1 :=
      fun v hv => (mem_range.mp (hperm.mem_iff.mp hv)).le
    rw [getD_eq_getElem?_getD, getElem?_map, (permutationVector_ranks hmax hle).mpr hr]
    rfl
  refine ⟨fun d hd => ?_, fun d hd d' hd' heq => ?_, fun d hd d' hd' hlt => ?_⟩
  · obtain ⟨r, -, -, hr⟩ := hrank d hd
    exact hr ▸ Nat.sub_le sedMax r
  · obtain ⟨r, hle, hget, hr⟩ := hrank d hd
    obtain ⟨r', hle', hget', hr'⟩ := hrank d' hd'
    obtain rfl : r = r' := by omega
    exact some.inj (hget.symm.trans hget')
  · obtain ⟨r, hle, hget, hr⟩ := hrank d hd
    obtain ⟨r', hle', hget', hr'⟩ := hrank d' hd'
    obtain ⟨h₁, rfl⟩ := List.getElem?_eq_some_iff.mp hget
    obtain ⟨h₂, rfl⟩ := List.getElem?_eq_some_iff.mp hget'
    rcases pairwise_iff_getElem.mp hsorted r' r h₂ h₁ (by omega) with h | h
    · exact h.le
    · exact h.1.le

/-- The loop over the states, up to `k`: state `s` is in the EC `g s`, and the lists are in
descending order. -/
structure Populated (g : ℕ → ℕ) (m k : ℕ) (env : MinEnv) : Prop where
  length : env.ecs.length = m
  perm : env.classes.flatten.Perm (range k)
  link : ∀ {i c}, env.classes[i]? = some c → ∀ s ∈ c, g s = i
  stateEcs : ∀ s, env.stateEcs s = if s < k then some (g s) else none
  descending : ∀ c ∈ env.classes, c.Pairwise (· > ·)

namespace Populated

variable {g : ℕ → ℕ} {m k : ℕ} {env : MinEnv}

theorem classes_pushState (env : MinEnv) (ec i : ℕ) :
    (pushState env ec i).classes = env.classes.modify ec (i :: ·) :=
  MinEnv.map_states_modify env.ecs ec (i :: ·)

theorem lt (h : Populated g m k env) (hc : c ∈ env.classes) (hs : s ∈ c) : s < k :=
  mem_range.mp (h.perm.mem_iff.mp (mem_flatten.mpr ⟨c, hc, hs⟩))

theorem mem_iff (h : Populated g m k env) {i : ℕ} (hi : env.classes[i]? = some c) :
    s ∈ c ↔ s < k ∧ g s = i := by
  constructor
  · exact fun hs => ⟨h.lt (mem_of_getElem? hi) hs, h.link hi s hs⟩
  · intro ⟨hs, hgs⟩
    obtain ⟨d, hd, hsd⟩ := mem_flatten.mp (h.perm.mem_iff.mpr (mem_range.mpr hs))
    obtain ⟨j, hj⟩ := mem_iff_getElem?.mp hd
    rw [← hgs, h.link hj s hsd, hj] at hi
    exact some.inj hi ▸ hsd

theorem step (h : Populated g m k env) (hg : g k < m) :
    Populated g m (k + 1) (pushState env (g k) k) := by
  have hlt : g k < env.classes.length := by rwa [MinEnv.length_classes, h.length]
  refine ⟨by simpa [pushState] using h.length, ?_, fun {i c} hi s hs => ?_, fun s => ?_,
    fun c hc => ?_⟩
  · have hflat : (env.classes.modify (g k) (k :: ·)).flatten.Perm (k :: env.classes.flatten) :=
      flatten_modify_perm (getElem?_eq_getElem hlt) (Perm.refl _)
    have hrange : (k :: range k).Perm (range (k + 1)) := by
      rw [range_succ]
      exact (perm_append_singleton k _).symm
    rw [classes_pushState]
    exact hflat.trans ((h.perm.cons k).trans hrange)
  · rw [classes_pushState, getElem?_modify] at hi
    obtain ⟨d, hd, rfl⟩ := map_eq_some_iff.mp hi
    split at hs
    · rename_i hgi
      rcases mem_cons.mp hs with rfl | hs
      · exact hgi
      · exact h.link hd s hs
    · exact h.link hd s hs
  · change Function.update env.stateEcs k (some (g k)) s = _
    rw [Function.update_apply, h.stateEcs]
    by_cases hs : s = k
    · rw [if_pos hs, hs, if_pos (Nat.lt_succ_self k)]
    · have hiff : s < k ↔ s < k + 1 := by omega
      rw [if_neg hs]
      simp only [hiff]
  · rw [classes_pushState] at hc
    obtain ⟨i, hi⟩ := mem_iff_getElem?.mp hc
    rw [getElem?_modify] at hi
    obtain ⟨d, hd, rfl⟩ := map_eq_some_iff.mp hi
    have hmem := mem_of_getElem? hd
    split
    · exact pairwise_cons.mpr ⟨fun s hs => h.lt hmem hs, h.descending d hmem⟩
    · exact h.descending d hmem

theorem foldl (hempty : Populated g m 0 env) (hg : ∀ i, g i < m) (n : ℕ) :
    Populated g m n ((range n).foldl (fun env i => pushState env (g i) i) env) := by
  induction n with
  | zero => exact hempty
  | succ n ih =>
    rw [range_succ, foldl_append]
    exact ih.step (hg n)

theorem replicate (g : ℕ → ℕ) (m : ℕ) : Populated g m 0
    { ecs := List.replicate m {}, stateEcs := fun _ => none, doneEcOffset := 0,
      declared := 0 } := by
  have hnil : ∀ c ∈ (List.replicate m ({} : Ec)).map Ec.states, c = [] := by
    intro c hc
    obtain ⟨e, he, rfl⟩ := mem_map.mp hc
    rw [eq_of_mem_replicate he]
  refine ⟨length_replicate, ?_, fun {i c} hi s hs => ?_, fun s => rfl, fun c hc => ?_⟩
  · rw [MinEnv.classes, flatten_eq_nil_iff.mpr hnil, range_zero]
  · rw [hnil c (mem_of_getElem? hi)] at hs
    cases hs
  · rw [hnil c hc]
    exact List.Pairwise.nil

/-- In the end, ECs and links fit together. -/
theorem linked (h : Populated g m k env) (hsurj : ∀ i < m, ∃ s < k, g s = i) : EcLinked k env := by
  refine ⟨⟨h.perm, fun c hc => ?_⟩, fun {i c} _ hi s hs => ?_, fun s hs => ?_⟩
  · obtain ⟨i, hi⟩ := mem_iff_getElem?.mp hc
    obtain ⟨s, hs⟩ := hsurj i (h.length ▸ MinEnv.lt_of_getElem?_classes hi)
    exact ne_nil_of_mem ((h.mem_iff hi).mpr hs)
  · obtain ⟨hs, hgs⟩ := (h.mem_iff hi).mp hs
    rw [h.stateEcs, if_pos hs, hgs]
  · rw [h.stateEcs, if_neg (Nat.not_lt_of_ge hs)]

end Populated

/-- **The first ECs**: states are together that are equally far from an end. -/
structure InitialEcs (n : ℕ) (sed : ℕ → ℕ) (env : MinEnv) : Prop where
  linked : EcLinked n env
  together : ∀ s < n, ∀ t < n, Together env.classes s t ↔ sed s = sed t
  descending : ∀ c ∈ env.classes, c.Pairwise (· > ·)
  done_le : env.doneEcOffset ≤ env.ecs.length

theorem length_of_distance {sed c : List ℕ} {d : ℕ} (hnodup : c.Nodup)
    (hmem : ∀ s, s ∈ c ↔ s < sed.length ∧ sed.getD s 0 = d) : c.length = sed.count d := by
  have hperm : c.Perm ((range sed.length).filter fun s => sed.getD s 0 = d) := by
    refine (perm_ext_iff_of_nodup hnodup (nodup_range.filter _)).mpr fun s => ?_
    rw [hmem, mem_filter, mem_range, decide_eq_true_iff]
  rw [hperm.length_eq, ← countP_eq_length_filter]
  conv_rhs => rw [← map_getD_range sed]
  rw [count, countP_map]
  rfl

/-- The search for the first index is that for the first element. -/
theorem find?_range_eq_findIdx {cs : List (List ℕ)} {p : List ℕ → Bool} {q : ℕ → Bool}
    (hq : ∀ i c, cs[i]? = some c → q i = p c) :
    ((range cs.length).find? q).getD cs.length = cs.findIdx p := by
  have hget : ∀ i (hi : i < cs.length), q i = p cs[i] := fun i hi =>
    hq i _ (getElem?_eq_getElem hi)
  cases hfind : (range cs.length).find? q with
  | none =>
    refine (findIdx_eq_length_of_false fun c hc => ?_).symm
    obtain ⟨i, hi, rfl⟩ := getElem_of_mem hc
    rw [← hget i hi]
    simpa using find?_range_eq_none.mp hfind i hi
  | some i =>
    obtain ⟨hi, hmem, hbefore⟩ := find?_range_eq_some.mp hfind
    have hlt := mem_range.mp hmem
    refine ((findIdx_eq hlt).mpr ⟨(hget i hlt).symm.trans hi, fun j hj => ?_⟩).symm
    rw [← hget j (hj.trans hlt)]
    simpa using hbefore j hj

/-- Every distance up to the largest one has to occur, or there would be ECs without states. -/
theorem populateInitialEcs_ranked {n : ℕ} {sed : List ℕ} (hlen : sed.length = n)
    (hall : ∀ d ≤ sed.foldl max 0, d ∈ sed) :
    InitialEcs n (fun s => sed.getD s 0) (populateInitialEcs n sed) ∧
      (populateInitialEcs n sed).classes.Pairwise (fun c c' => c'.length ≤ c.length) ∧
      (populateInitialEcs n sed).doneEcOffset =
        (populateInitialEcs n sed).classes.findIdx (·.length < 2) := by
  set sedMax := sed.foldl max 0 with hm
  set ranking := sedRanking sedMax ((range (sedMax + 1)).map fun d => sed.count d) with hr
  have hcounts : ((range (sedMax + 1)).map fun d => sed.count d).length = sedMax + 1 := by simp
  obtain ⟨hrankLe, hrankInj, hrankSize⟩ := sedRanking_spec hcounts
  have hle : ∀ s, sed.getD s 0 ≤ sedMax := by
    intro s
    rcases lt_or_ge s sed.length with hs | hs
    · rw [getD_eq_getElem _ _ hs]
      exact (le_foldl_max id sed 0).2 _ (getElem_mem hs)
    · rw [getD_eq_default _ _ hs]
      exact Nat.zero_le sedMax
  have hpop := (Populated.replicate (fun s => ranking.getD (sed.getD s 0) 0) (sedMax + 1)).foldl
    (fun i => Nat.lt_succ_of_le (hrankLe _ (hle i))) n
  set env := (range n).foldl (fun env i => pushState env (ranking.getD (sed.getD i 0) 0) i)
    { ecs := List.replicate (sedMax + 1) {}, stateEcs := fun _ => none, doneEcOffset := 0,
      declared := 0 } with henv
  have hlinked : EcLinked n env := by
    apply hpop.linked
    intro i hi
    -- the ranks are all different, so each EC is the rank of some distance
    have hinj : Function.Injective fun d : Fin (sedMax + 1) =>
        (⟨ranking.getD d 0, Nat.lt_succ_of_le (hrankLe d (Nat.le_of_lt_succ d.isLt))⟩ :
          Fin (sedMax + 1)) := by
      intro d d' hdd
      exact Fin.ext (hrankInj d (Nat.le_of_lt_succ d.isLt) d' (Nat.le_of_lt_succ d'.isLt)
        (congrArg Fin.val hdd))
    obtain ⟨d, hd⟩ := Finite.surjective_of_injective hinj ⟨i, hi⟩
    obtain ⟨s, hs, hsd⟩ := getElem_of_mem (hall d (Nat.le_of_lt_succ d.isLt))
    refine ⟨s, hlen ▸ hs, ?_⟩
    rw [getD_eq_getElem _ _ hs, hsd]
    exact congrArg Fin.val hd
  -- the size of an EC is the count of the distance of any of its states
  have hsize : ∀ {i : ℕ} {c : List ℕ}, env.classes[i]? = some c → ∀ s ∈ c,
      ((range (sedMax + 1)).map fun d => sed.count d).getD (sed.getD s 0) 0 = c.length := by
    intro i c hi s hs
    have hnodup : c.Nodup := (hpop.descending c (mem_of_getElem? hi)).imp ne_of_gt
    rw [length_of_distance hnodup (d := sed.getD s 0)]
    · rw [getD_eq_getElem?_getD, getElem?_map, getElem?_range (Nat.lt_succ_of_le (hle s))]
      rfl
    · intro t
      rw [hpop.mem_iff hi, hlen, ← ((hpop.mem_iff hi).mp hs).2]
      exact and_congr_right fun _ =>
        ⟨hrankInj _ (hle t) _ (hle s), congrArg (ranking.getD · 0)⟩
  have hne : ∀ {i : ℕ} {c : List ℕ}, env.classes[i]? = some c → c ≠ [] := fun hi =>
    hlinked.divides.nonempty _ (mem_of_getElem? hi)
  have hlength : env.classes.length = sedMax + 1 := by rw [MinEnv.length_classes, hpop.length]
  have heq : populateInitialEcs n sed =
      { env with doneEcOffset := env.classes.findIdx (·.length < 2) } := by
    rw [← find?_range_eq_findIdx, hlength]
    · rfl
    · intro i c hi
      have hhead := hsize hi _ (head_mem (hne hi))
      rw [MinEnv.ec_states hi, headD_eq_head?_getD, head?_eq_some_head (hne hi)]
      rw [← hhead]
      rfl
  rw [heq]
  refine ⟨⟨hlinked.congr rfl rfl, fun s hs t ht => ?_, hpop.descending, ?_⟩, ?_, rfl⟩
  · change Together env.classes s t ↔ _
    rw [← hlinked.stateEcs_eq_iff hs, hpop.stateEcs, hpop.stateEcs, if_pos hs, if_pos ht,
      some.injEq]
    exact ⟨hrankInj _ (hle s) _ (hle t), fun hst => congrArg (ranking.getD · 0) hst⟩
  · rw [← MinEnv.length_classes]
    exact findIdx_le_length
  · refine pairwise_iff_getElem.mpr fun i j hi hj hij => ?_
    have hi := getElem?_eq_getElem hi
    have hj := getElem?_eq_getElem hj
    have hs := head_mem (hne hi)
    have ht := head_mem (hne hj)
    rw [← hsize hi _ hs, ← hsize hj _ ht]
    apply hrankSize _ (hle _) _ (hle _)
    rw [← hr, ((hpop.mem_iff hi).mp hs).2, ((hpop.mem_iff hj).mp ht).2]
    exact hij

theorem populateInitialEcs_spec {n : ℕ} {sed : List ℕ} (hlen : sed.length = n)
    (hall : ∀ d ≤ sed.foldl max 0, d ∈ sed) :
    InitialEcs n (fun s => sed.getD s 0) (populateInitialEcs n sed) :=
  (populateInitialEcs_ranked hlen hall).1

end Libfsm
