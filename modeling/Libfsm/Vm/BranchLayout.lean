import Libfsm.Vm.Bytecode
import Libfsm.Lib.Layout
import Libfsm.Lib.Runs

/-!
# The Layout Of Branches

`assign_rel_dests` ends, and with a layout in which each branch knows its distance and is just
wide enough for it.

- `relaxation`: the sizes of the opcodes as a function of the distances
- `Renders`: opcodes that are laid out with given sizes
- `relaxLoop_spec`: the loop ends at sizes that a round does not change
- `assignRelDests_spec`: what `assign_rel_dests` returns, for a program whose largest encoding is
  shorter than `2 ^ 31` bytes
- `assignRelDests_laidOut`: the sizes in all rounds, and the layout on exit
-/

namespace Libfsm

open Lib
open List hiding nil cons prev tail

/-! ## §1 Sizes -/

/-- The bytes of an opcode without the destination of a branch. -/
def DfavmVmOp.headSize (op : DfavmVmOp) : ℕ := if op.cmp = .always then 1 else 2

/-- The kind of destination that a distance asks for. -/
def destKind (rel : ℤ) : VmDest :=
  if -2 ^ 7 ≤ rel ∧ rel < 2 ^ 7 then .short
  else if -2 ^ 15 ≤ rel ∧ rel < 2 ^ 15 then .near
  else .far

/-- The bytes of a destination. -/
def VmDest.size : VmDest → ℕ
  | none => 0
  | short => 1
  | near => 2
  | far => 4

/-- The destination of a branch. -/
def VmOpInstr.target : VmOpInstr → Option ℕ
  | branch i _ _ => some i
  | _ => Option.none

theorem opEncodingSize_branch {op : DfavmVmOp} {i : ℕ} {dest : VmDest} {rel : ℤ}
    (h : op.instr = .branch i dest rel) : opEncodingSize op false =
      ({ op with instr := .branch i (destKind rel) rel }, op.headSize + (destKind rel).size) := by
  unfold opEncodingSize destKind
  rw [h]
  simp only [true_and]
  split
  · rfl
  · split <;> rfl

/-- A shorter distance asks for no more bytes. -/
theorem size_destKind_le {d d' : ℤ} (h : 0 ≤ d' ∧ d' ≤ d ∨ d ≤ d' ∧ d' ≤ 0) :
    (destKind d').size ≤ (destKind d).size := by
  unfold destKind
  split_ifs <;> first | decide | (omega)

/-- The sizes of opcodes as a function of the distances of their branches. -/
def relaxation (prog : List DfavmVmOp) : Relaxation where
  target i := prog[i]?.bind fun op => op.instr.target
  size i d := (prog[i]?.map fun op =>
    op.headSize + if op.instr.target.isSome then (destKind d).size else 0).getD 0
  size_le i d d' h := by
    cases prog[i]? with
    | none => exact le_rfl
    | some op =>
      simp only [Option.map_some, Option.getD_some]
      split
      · exact Nat.add_le_add_left (size_destKind_le h) _
      · exact le_rfl

/-- The same opcode, up to its place and how its destination is written. -/
structure SameOp (op op₀ : DfavmVmOp) : Prop where
  cmp : op.cmp = op₀.cmp
  cmpArg : op.cmpArg = op₀.cmpArg
  target : op.instr.target = op₀.instr.target
  instr : op₀.instr.target = none → op.instr = op₀.instr

theorem SameOp.headSize {op op₀ : DfavmVmOp} (h : SameOp op op₀) : op.headSize = op₀.headSize := by
  rw [DfavmVmOp.headSize, DfavmVmOp.headSize, h.cmp]

/-- Opcodes that are laid out with the given sizes. -/
structure Renders (prog : List DfavmVmOp) (sizes : List ℕ) (ops : List DfavmVmOp) : Prop where
  sizes_eq : ops.map DfavmVmOp.numEncodedBytes = sizes
  same : Forall₂ SameOp ops prog
  offset_eq : ∀ i op, ops[i]? = some op → op.offset = offset sizes i
  /-- Only branches can change their size -/
  fixed : ∀ op ∈ ops, op.instr.target = none → op.numEncodedBytes = op.headSize

/-! ## §2 Rounds -/

theorem map_numEncodedBytes_setOffsets (off : ℕ) (ops : List DfavmVmOp) :
    (setOffsets off ops).map DfavmVmOp.numEncodedBytes = ops.map DfavmVmOp.numEncodedBytes := by
  induction ops generalizing off with
  | nil => rfl
  | cons op ops ih => rw [setOffsets, map_cons, ih, map_cons]

/-- `setOffsets` gives each opcode its offset. -/
theorem getElem?_setOffsets (off : ℕ) (ops : List DfavmVmOp) (i : ℕ) :
    (setOffsets off ops)[i]? = ops[i]?.map fun op =>
      { op with offset := off + offset (ops.map DfavmVmOp.numEncodedBytes) i } := by
  induction ops generalizing off i with
  | nil => rfl
  | cons op ops ih =>
    cases i with
    | zero => simp [setOffsets]
    | succ i =>
      rw [setOffsets, getElem?_cons_succ, ih, getElem?_cons_succ, map_cons,
        offset_cons_succ, add_assoc]

theorem setOffsets_same {prog ops : List DfavmVmOp} (h : Forall₂ SameOp ops prog) (off : ℕ) :
    Forall₂ SameOp (setOffsets off ops) prog := by
  induction h generalizing off with
  | nil => exact .nil
  | cons hop _ ih => exact .cons ⟨hop.cmp, hop.cmpArg, hop.target, hop.instr⟩ (ih _)

theorem setOffsets_renders {prog ops : List DfavmVmOp} (h : Forall₂ SameOp ops prog)
    (hfixed : ∀ op ∈ ops, op.instr.target = none → op.numEncodedBytes = op.headSize) :
    Renders prog (ops.map DfavmVmOp.numEncodedBytes) (setOffsets 0 ops) := by
  refine ⟨map_numEncodedBytes_setOffsets 0 ops, setOffsets_same h 0, ?_, ?_⟩
  · intro i op hop
    rw [getElem?_setOffsets] at hop
    obtain ⟨op', -, rfl⟩ := Option.map_eq_some_iff.mp hop
    exact zero_add _
  · intro op hop
    obtain ⟨i, hi⟩ := mem_iff_getElem?.mp hop
    rw [getElem?_setOffsets] at hi
    obtain ⟨op', hop', rfl⟩ := Option.map_eq_some_iff.mp hi
    exact hfixed op' (mem_of_getElem? hop')

/-- An opcode as a round leaves it: it has its distance, and a size to match. -/
structure Relaxed (prog : List DfavmVmOp) (sizes : List ℕ) (i : ℕ) (op : DfavmVmOp) : Prop where
  size : op.numEncodedBytes = (relaxation prog).size i ((relaxation prog).distance sizes i)
  offset_eq : op.offset = offset sizes i
  branch : ∀ j dest rel, op.instr = .branch j dest rel →
    rel = offset sizes j - offset sizes i ∧ dest = destKind rel ∧ -2 ^ 31 ≤ rel ∧ rel < 2 ^ 31

section Round

variable {prog ops : List DfavmVmOp} {sizes : List ℕ}

/-- The branches of a program lead to opcodes. -/
def TargetsIn (prog : List DfavmVmOp) : Prop :=
  ∀ op ∈ prog, ∀ j, op.instr.target = some j → j < prog.length

theorem relaxOp_spec (h : Renders prog sizes ops) (hprog : TargetsIn prog)
    (hsum : sizes.sum < 2 ^ 31) {i : ℕ} {op op₀ : DfavmVmOp} (hop : ops[i]? = some op)
    (hop₀ : prog[i]? = some op₀) (hsame : SameOp op op₀) : ∃ op',
      relaxOp ops op = some (op', decide (op'.numEncodedBytes ≠ op.numEncodedBytes)) ∧
      SameOp op' op₀ ∧ Relaxed prog sizes i op' := by
  have hoff := h.offset_eq i op hop
  cases htarget : op.instr.target with
  | none =>
    have htarget₀ := hsame.target.symm.trans htarget
    refine ⟨op, ?_, hsame, ?_, hoff, ?_⟩
    · unfold relaxOp
      cases hi : op.instr with
      | branch => simp [VmOpInstr.target, hi] at htarget
      | _ => simp
    · rw [h.fixed op (mem_of_getElem? hop) htarget, hsame.headSize]
      simp [relaxation, hop₀, htarget₀]
    · intro j dest rel hi
      simp [VmOpInstr.target, hi] at htarget
  | some j =>
    have htarget₀ := hsame.target.symm.trans htarget
    -- the target is in the program, and not too far away
    have hj : j < ops.length := by
      rw [h.same.length_eq]
      exact hprog op₀ (mem_of_getElem? hop₀) j htarget₀
    obtain ⟨target, htgt⟩ : ∃ target, ops[j]? = some target := ⟨_, getElem?_eq_getElem hj⟩
    have hdiff : ((target.offset : ℤ) - op.offset) = (relaxation prog).distance sizes i := by
      rw [h.offset_eq j target htgt, hoff, Relaxation.distance]
      simp [relaxation, hop₀, htarget₀]
    have hrange : -2 ^ 31 ≤ (target.offset : ℤ) - op.offset ∧
        (target.offset : ℤ) - op.offset < 2 ^ 31 := by
      have h₁ := h.offset_eq j target htgt ▸ offset_le_sum sizes j
      have h₂ := hoff ▸ offset_le_sum sizes i
      omega
    cases hi : op.instr with
    | stop => simp [VmOpInstr.target, hi] at htarget
    | fetch => simp [VmOpInstr.target, hi] at htarget
    | branch j' dest rel =>
      obtain rfl : j' = j := by simpa [VmOpInstr.target, hi] using htarget
      refine ⟨{ op with
        instr := .branch j' (destKind (target.offset - op.offset)) (target.offset - op.offset)
        numEncodedBytes :=
          op.headSize + (destKind (target.offset - op.offset)).size }, ?_, ?_, ?_, hoff, ?_⟩
      · unfold relaxOp
        rw [hi]
        dsimp only
        rw [htgt, Option.bind_some, if_pos hrange, opEncodingSize_branch (i := j') rfl]
        rfl
      · refine ⟨hsame.cmp, hsame.cmpArg, htarget₀.symm, fun hn => ?_⟩
        exact absurd (htarget₀.symm.trans hn) (by simp)
      · rw [hdiff, hsame.headSize]
        simp [relaxation, hop₀, htarget₀]
      · intro j dest rel hbr
        obtain ⟨rfl, rfl, rfl⟩ := hbr
        refine ⟨?_, rfl, hrange⟩
        rw [h.offset_eq j' target htgt, hoff]

/-- One round: sizes as the distances ask for, and whether one of them has changed. -/
theorem relaxRound_spec (h : Renders prog sizes ops) (hprog : TargetsIn prog)
    (hsum : sizes.sum < 2 ^ 31) : ∃ r, ops.mapM (relaxOp ops) = some r ∧
      Forall₂ SameOp (r.map Prod.fst) prog ∧
      (∀ i op, (r.map Prod.fst)[i]? = some op → Relaxed prog sizes i op) ∧
      (r.map Prod.fst).map DfavmVmOp.numEncodedBytes = (relaxation prog).relax sizes ∧
      (r.any Prod.snd = true ↔ (relaxation prog).relax sizes ≠ sizes) := by
  have hround : ∀ i op, ops[i]? = some op → ∃ p, relaxOp ops op = some p ∧
      p.2 = decide (p.1.numEncodedBytes ≠ op.numEncodedBytes) ∧
      Relaxed prog sizes i p.1 ∧ ∃ op₀, prog[i]? = some op₀ ∧ SameOp p.1 op₀ := by
    intro i op hop
    obtain ⟨op₀, hop₀, hsame⟩ := forall₂_getElem? h.same hop
    obtain ⟨op', hrelax, hsame', hrel⟩ := relaxOp_spec h hprog hsum hop hop₀ hsame
    exact ⟨_, hrelax, rfl, hrel, op₀, hop₀, hsame'⟩
  obtain ⟨r, hr, hlen, hget⟩ := exists_mapM hround
  have hlen' : r.length = sizes.length := by rw [hlen, ← h.sizes_eq, length_map]
  have hsizes : (r.map Prod.fst).map DfavmVmOp.numEncodedBytes = (relaxation prog).relax sizes := by
    apply ext_getElem (by simp [hlen'])
    intro i hi hi'
    have hi₀ : i < r.length := by simpa using hi
    obtain ⟨op, hop, -, hrel, -⟩ := hget i _ (getElem?_eq_getElem hi₀)
    simp only [getElem_map, Relaxation.relax, getElem_mapIdx]
    exact hrel.size
  refine ⟨r, hr, ?_, ?_, hsizes, ?_⟩
  · rw [List.forall₂_iff_get]
    refine ⟨by simp [hlen, h.same.length_eq], fun i hi hi' => ?_⟩
    have hi₀ : i < r.length := by simpa using hi
    obtain ⟨op, -, -, -, op₀, hop₀, hsame⟩ := hget i _ (getElem?_eq_getElem hi₀)
    rw [getElem?_eq_getElem hi'] at hop₀
    simp only [get_eq_getElem, getElem_map, Option.some.inj hop₀]
    exact hsame
  · intro i op hop
    rw [getElem?_map] at hop
    obtain ⟨p, hp, rfl⟩ := Option.map_eq_some_iff.mp hop
    obtain ⟨op, -, -, hrel, -⟩ := hget i p hp
    exact hrel
  · -- a size has changed if it is not what it was
    rw [← hsizes, ← h.sizes_eq, any_eq_true]
    constructor
    · rintro ⟨p, hp, hchanged⟩ heq
      obtain ⟨i, hi⟩ := mem_iff_getElem?.mp hp
      obtain ⟨op, hop, hflag, -⟩ := hget i p hi
      have := congrArg (fun l => l[i]?) heq
      simp only [getElem?_map, hi, hop, Option.map_some, Option.some.injEq] at this
      rw [hflag, decide_eq_true_eq] at hchanged
      exact hchanged this
    · intro hne
      by_contra hnone
      push Not at hnone
      apply hne
      apply ext_getElem (by simp [hlen])
      intro i hi hi'
      have hi₀ : i < r.length := by simpa using hi
      obtain ⟨op, hop, hflag, -⟩ := hget i _ (getElem?_eq_getElem hi₀)
      have hsame := hnone _ (getElem_mem hi₀)
      simp only [hflag, ne_eq, decide_eq_true_eq, not_not] at hsame
      rw [getElem?_eq_getElem (hlen ▸ hi₀)] at hop
      simp only [getElem_map, Option.some.inj hop, hsame]

/-- What the loop of `assign_rel_dests` ends with: sizes that a round does not change. -/
structure Settled (prog : List DfavmVmOp) (sizes : List ℕ) (ops : List DfavmVmOp) : Prop where
  sizes_eq : ops.map DfavmVmOp.numEncodedBytes = sizes
  same : Forall₂ SameOp ops prog
  relaxed : ∀ i op, ops[i]? = some op → Relaxed prog sizes i op

/-- A round leaves opcodes that are laid out with the sizes that the distances ask for. -/
theorem relaxRound_renders (h : Renders prog sizes ops) (hprog : TargetsIn prog)
    (hsum : sizes.sum < 2 ^ 31) : ∃ r, ops.mapM (relaxOp ops) = some r ∧
      Renders prog ((relaxation prog).relax sizes) (setOffsets 0 (r.map Prod.fst)) ∧
      (r.any Prod.snd = true ↔ (relaxation prog).relax sizes ≠ sizes) ∧
      ((relaxation prog).relax sizes = sizes → Settled prog sizes (r.map Prod.fst)) := by
  obtain ⟨r, hr, hsame, hrel, hsizes, hchanged⟩ := relaxRound_spec h hprog hsum
  have hrender := setOffsets_renders hsame fun op hop htarget => by
    -- an opcode without a destination has the size of its head
    obtain ⟨i, hi⟩ := mem_iff_getElem?.mp hop
    obtain ⟨op₀, hop₀, hsame₀⟩ := forall₂_getElem? hsame hi
    rw [(hrel i op hi).size, hsame₀.headSize]
    simp [relaxation, hop₀, hsame₀.target.symm.trans htarget]
  rw [hsizes] at hrender
  exact ⟨r, hr, hrender, hchanged, fun hfix => ⟨hsizes.trans hfix, hsame, hrel⟩⟩

/-- **The loop ends.**  Sizes that are large enough to begin with never grow, and each round but
the last makes the program shorter. -/
theorem relaxLoop_spec (hprog : TargetsIn prog) (fuel : ℕ) :
    ∀ {sizes : List ℕ} {ops : List DfavmVmOp}, Renders prog sizes ops → sizes.sum < 2 ^ 31 →
      Forall₂ (· ≤ ·) ((relaxation prog).relax sizes) sizes → sizes.sum < fuel →
      ∃ sizes' ops', relaxLoop fuel ops = some ops' ∧ Settled prog sizes' ops' ∧
        sizes'.sum < 2 ^ 31 := by
  induction fuel with
  | zero => exact fun _ _ _ hfuel => absurd hfuel (Nat.not_lt_zero _)
  | succ fuel ih =>
    intro sizes ops h hsum hle hfuel
    obtain ⟨r, hr, hrender, hchanged, hsettled⟩ := relaxRound_renders h hprog hsum
    rw [relaxLoop, hr, Option.bind_some]
    split
    · rename_i hany
      have hlt := Relaxation.sum_lt_of_ne hle (hchanged.mp hany)
      exact ih hrender (hlt.trans hsum) ((relaxation prog).relax_mono hle)
        (lt_of_lt_of_le hlt (Nat.le_of_lt_succ hfuel))
    · rename_i hany
      exact ⟨sizes, _, rfl, hsettled (by_contra fun hne => hany (hchanged.mpr hne)), hsum⟩

end Round

/-! ## §3 The Whole Layout -/

theorem widestOp_branch {op : DfavmVmOp} {j : ℕ} (h : op.instr.target = some j) :
    (widestOp op).numEncodedBytes = op.headSize + 4 ∧ (widestOp op).instr.target = some j := by
  unfold widestOp opEncodingSize
  cases hi : op.instr with
  | branch i dest rel => exact ⟨rfl, by simpa [VmOpInstr.target, hi] using h⟩
  | _ => simp [VmOpInstr.target, hi] at h

theorem widestOp_other {op : DfavmVmOp} (h : op.instr.target = none) :
    (widestOp op).numEncodedBytes = op.headSize ∧ (widestOp op).instr = op.instr := by
  unfold widestOp opEncodingSize
  cases hi : op.instr with
  | branch i dest rel => simp [VmOpInstr.target, hi] at h
  | _ => exact ⟨rfl, hi⟩

theorem widestOp_cmp (op : DfavmVmOp) :
    (widestOp op).cmp = op.cmp ∧ (widestOp op).cmpArg = op.cmpArg := by
  unfold widestOp opEncodingSize
  cases op.instr <;> exact ⟨rfl, rfl⟩

theorem widestOp_same (op : DfavmVmOp) : SameOp (widestOp op) op := by
  refine ⟨(widestOp_cmp op).1, (widestOp_cmp op).2, ?_, fun h => (widestOp_other h).2⟩
  cases h : op.instr.target with
  | none => rw [(widestOp_other h).2, h]
  | some j => exact (widestOp_branch h).2

/-- The number of bytes of the largest encoding. -/
def widestBytes (prog : List DfavmVmOp) : ℕ := nbytes (prog.map widestOp)

section Layout

variable {prog ops : List DfavmVmOp} (hprog : TargetsIn prog) (hbytes : widestBytes prog < 2 ^ 31)

/-- The opcodes before the first round. -/
def widestOps (prog : List DfavmVmOp) : List DfavmVmOp := setOffsets 0 (prog.map widestOp)

theorem widestOps_renders :
    Renders prog ((prog.map widestOp).map DfavmVmOp.numEncodedBytes) (widestOps prog) := by
  refine setOffsets_renders ?_ fun op hop htarget => ?_
  · rw [List.forall₂_map_left_iff]
    exact List.forall₂_same.mpr fun op _ => widestOp_same op
  · obtain ⟨op₀, -, rfl⟩ := mem_map.mp hop
    have hsame₀ := widestOp_same op₀
    rw [(widestOp_other (hsame₀.target.symm.trans htarget)).1, hsame₀.headSize]

/-- No distance asks for more than the largest encoding. -/
theorem relax_widest_le : Forall₂ (· ≤ ·)
    ((relaxation prog).relax ((prog.map widestOp).map DfavmVmOp.numEncodedBytes))
    ((prog.map widestOp).map DfavmVmOp.numEncodedBytes) := by
  rw [List.forall₂_iff_get]
  refine ⟨by simp, fun i hi hi' => ?_⟩
  have hi₀ : i < prog.length := by simpa using hi'
  simp only [Relaxation.relax, get_eq_getElem, getElem_mapIdx, getElem_map]
  simp only [relaxation, getElem?_eq_getElem hi₀, Option.map_some, Option.getD_some]
  cases htarget : (prog[i]).instr.target with
  | none => simp [(widestOp_other htarget).1]
  | some j =>
    simp only [(widestOp_branch htarget).1, Option.isSome_some, if_true]
    apply Nat.add_le_add_left
    cases destKind _ <;> decide

include hprog hbytes

/-- **`assign_rel_dests`** succeeds if the largest encoding is shorter than `2 ^ 31` bytes. -/
theorem assignRelDests_spec : ∃ sizes ops, assignRelDests prog = some ops ∧
    Settled prog sizes ops ∧ sizes.sum < 2 ^ 31 := by
  refine relaxLoop_spec hprog _ widestOps_renders hbytes relax_widest_le ?_
  rw [nbytes, map_numEncodedBytes_setOffsets]
  exact Nat.lt_succ_self _

/-! ## §4 Rounds One After Another -/

omit hprog hbytes

/-- One turn of the loop of `assign_rel_dests`, if it is not the last. -/
def relaxRound (ops : List DfavmVmOp) : Option (List DfavmVmOp) :=
  (ops.mapM (relaxOp ops)).map fun r => setOffsets 0 (r.map Prod.fst)

/-- The opcodes after some rounds. -/
def Rounds (prog ops : List DfavmVmOp) : Prop :=
  Relation.ReflTransGen (fun l l' => relaxRound l = some l') (widestOps prog) ops

/-- `off` after the loop that adjusts the offsets, which `a->nbytes` is set to. -/
def offsetsEnd (off : ℕ) (ops : List DfavmVmOp) : ℕ :=
  ops.foldl (fun off op => off + op.numEncodedBytes) off

/-- A distance fits into a destination. -/
def VmDest.Fits : VmDest → ℤ → Prop
  | none, _ => False
  | short, rel => -2 ^ 7 ≤ rel ∧ rel < 2 ^ 7
  | near, rel => -2 ^ 15 ≤ rel ∧ rel < 2 ^ 15
  | far, rel => -2 ^ 31 ≤ rel ∧ rel < 2 ^ 31

theorem destKind_fits {rel : ℤ} (h : -2 ^ 31 ≤ rel ∧ rel < 2 ^ 31) : (destKind rel).Fits rel := by
  unfold destKind
  split_ifs with hshort hnear
  · exact hshort
  · exact hnear
  · exact h

/-- The last round of the loop is one that changes no size. -/
theorem rounds_of_relaxLoop {fuel : ℕ} {l l' : List DfavmVmOp} (h : relaxLoop fuel l = some l') :
    ∃ prev r, Relation.ReflTransGen (fun l l' => relaxRound l = some l') l prev ∧
      prev.mapM (relaxOp prev) = some r ∧ r.any Prod.snd = false ∧ l' = r.map Prod.fst := by
  induction fuel generalizing l with
  | zero => cases h
  | succ fuel ih =>
    obtain ⟨r, hr, h⟩ := Option.bind_eq_some_iff.mp h
    split at h
    · obtain ⟨prev, r', hrounds, hr', hany, hl'⟩ := ih h
      refine ⟨prev, r', .head ?_ hrounds, hr', hany, hl'⟩
      rw [relaxRound, hr, Option.map_some]
    · rename_i hany
      exact ⟨l, r, .refl, hr, Bool.eq_false_iff.mpr hany, (Option.some.inj h).symm⟩

/-- What the layout is to be: every branch has its distance in a destination that it fits, the
opcodes follow one another, and `a->nbytes` is the number of all bytes. -/
structure LaidOut (prog ops : List DfavmVmOp) : Prop where
  same : Forall₂ SameOp ops prog
  branch : ∀ op ∈ ops, ∀ j dest rel, op.instr = .branch j dest rel → ∃ target,
    ops[j]? = some target ∧ rel = target.offset - op.offset ∧ dest.Fits rel ∧
      op.numEncodedBytes = op.headSize + dest.size
  offset_eq : ∀ i op, ops[i]? = some op →
    op.offset = ((ops.take i).map DfavmVmOp.numEncodedBytes).sum
  nbytes_eq : ∃ prev r, Rounds prog prev ∧ prev.mapM (relaxOp prev) = some r ∧
    r.any Prod.snd = false ∧ ops = r.map Prod.fst ∧
    offsetsEnd 0 prev = (ops.map DfavmVmOp.numEncodedBytes).sum

include hprog hbytes

/-- All rounds find opcodes that are laid out, and no size ever grows. -/
theorem Rounds.renders (h : Rounds prog ops) : ∃ sizes, Renders prog sizes ops ∧
    sizes.sum < 2 ^ 31 ∧ Forall₂ (· ≤ ·) ((relaxation prog).relax sizes) sizes := by
  induction h with
  | refl => exact ⟨_, widestOps_renders, hbytes, relax_widest_le⟩
  | tail _ hround ih =>
    obtain ⟨sizes, hrenders, hsum, hle⟩ := ih
    obtain ⟨r, hr, hrenders', -⟩ := relaxRound_renders hrenders hprog hsum
    rw [relaxRound, hr] at hround
    cases hround
    exact ⟨_, hrenders', (List.Forall₂.sum_le_sum hle).trans_lt hsum,
      (relaxation prog).relax_mono hle⟩

theorem Rounds.next_le (h : Rounds prog ops) : ∃ ops', relaxRound ops = some ops' ∧
    Forall₂ (· ≤ ·) (ops'.map DfavmVmOp.numEncodedBytes)
      (ops.map DfavmVmOp.numEncodedBytes) := by
  obtain ⟨sizes, hrenders, hsum, hle⟩ := h.renders hprog hbytes
  obtain ⟨r, hr, hrenders', -⟩ := relaxRound_renders hrenders hprog hsum
  refine ⟨_, by rw [relaxRound, hr, Option.map_some], ?_⟩
  rwa [hrenders'.sizes_eq, hrenders.sizes_eq]

theorem laidOut_of_assignRelDests (h : assignRelDests prog = some ops) : LaidOut prog ops := by
  obtain ⟨prev, r, hrounds, hr, hany, rfl⟩ := rounds_of_relaxLoop h
  obtain ⟨sizes, hrenders, hsum, -⟩ := Rounds.renders hprog hbytes hrounds
  obtain ⟨r', hr', -, hchanged, hsettled⟩ := relaxRound_renders hrenders hprog hsum
  cases hr.symm.trans hr'
  obtain ⟨hsizes, hsame, hrelaxed⟩ :=
    hsettled (by_contra fun hne => Bool.false_ne_true (hany.symm.trans (hchanged.mpr hne)))
  refine ⟨hsame, ?_, ?_, prev, r, hrounds, hr, hany, rfl, ?_⟩
  · intro op hop j dest rel hinstr
    obtain ⟨i, hi⟩ := mem_iff_getElem?.mp hop
    obtain ⟨op₀, hop₀, hsame₀⟩ := forall₂_getElem? hsame hi
    obtain ⟨hrel, hdest, hrange⟩ := (hrelaxed i op hi).branch j dest rel hinstr
    have htarget : op₀.instr.target = some j := by rw [← hsame₀.target, hinstr, VmOpInstr.target]
    have hj : j < (r.map Prod.fst).length := by
      rw [hsame.length_eq]
      exact hprog op₀ (mem_of_getElem? hop₀) j htarget
    refine ⟨_, getElem?_eq_getElem hj, ?_, hdest ▸ destKind_fits hrange, ?_⟩
    · rw [(hrelaxed j _ (getElem?_eq_getElem hj)).offset_eq, (hrelaxed i op hi).offset_eq, hrel]
    · rw [(hrelaxed i op hi).size, hsame₀.headSize, Relaxation.distance]
      simp [relaxation, hop₀, htarget, hdest, hrel]
  · intro i op hi
    rw [(hrelaxed i op hi).offset_eq, offset, ← hsizes, map_take]
  · rw [hsizes, ← hrenders.sizes_eq, sum_eq_foldl, foldl_map]
    rfl

omit hprog hbytes

/-- **The layout of branches**: the loop ends, sizes never grow from one round to the next, and
what it ends with is laid out. -/
theorem assignRelDests_laidOut (prog : List DfavmVmOp) (hprog : TargetsIn prog)
    (hbytes : widestBytes prog < 2 ^ 31) :
    (∀ ops, Rounds prog ops → ∃ ops', relaxRound ops = some ops' ∧ Forall₂ (· ≤ ·)
      (ops'.map DfavmVmOp.numEncodedBytes) (ops.map DfavmVmOp.numEncodedBytes)) ∧
    ∃ ops, assignRelDests prog = some ops ∧ LaidOut prog ops := by
  refine ⟨fun ops hops => hops.next_le hprog hbytes, ?_⟩
  obtain ⟨-, ops, hops, -⟩ := assignRelDests_spec hprog hbytes
  exact ⟨ops, hops, laidOut_of_assignRelDests hprog hbytes hops⟩

end Layout

/-- Branches back to a fetch.  With `10000` of them, the first take one byte for their distance,
those after them two and the last ones four. -/
def backward (n : ℕ) : List DfavmVmOp :=
  ⟨0, .always, .fetch 0 .succ, 0, 0⟩ ::
    (replicate n ⟨0, .eq, .branch 0 .none 0, 97, 0⟩ ++ [⟨0, .always, .stop .fail, 0, 0⟩])

theorem target_backward {n j : ℕ} {op : DfavmVmOp} (hop : op ∈ backward n)
    (hj : op.instr.target = some j) : j = 0 := by
  simp only [backward, mem_cons, mem_append, mem_replicate, not_mem_nil, or_false] at hop
  rcases hop with rfl | ⟨-, rfl⟩ | rfl
  · cases hj
  · exact (Option.some.inj hj).symm
  · cases hj

theorem length_backward (n : ℕ) : (backward n).length = n + 2 := by simp [backward]

theorem widestBytes_backward (n : ℕ) : widestBytes (backward n) = 6 * n + 2 := by
  simp [backward, widestBytes, nbytes, widestOp, opEncodingSize]
  omega

theorem assignRelDests_laidOut_backward :
    (∀ ops, Rounds (backward 10000) ops → ∃ ops', relaxRound ops = some ops' ∧
      Forall₂ (· ≤ ·) (ops'.map DfavmVmOp.numEncodedBytes)
        (ops.map DfavmVmOp.numEncodedBytes)) ∧
    ∃ ops, assignRelDests (backward 10000) = some ops ∧ LaidOut (backward 10000) ops := by
  refine assignRelDests_laidOut _ (fun op hop j hj => ?_) ?_
  · rw [target_backward hop hj, length_backward]
    exact Nat.succ_pos _
  · rw [widestBytes_backward]
    norm_num

end Libfsm
