import Libfsm.Vm.V1

/-!
# Bytecode In Files

`fsm_dfavm_save` and `fsm_dfavm_load` of `vm.c` for the first version of the bytecode, with
`dfavm_v1_save` and `dfavm_load_v1` of `vm/v1.c`.

- `fsmDfavmSave`: header, length and program, one after another
- `fsmDfavmLoad`: what is read back.  The length is put together from its lowest byte and three
  times its second byte
- `fsmDfavmLoad_save_iff`: a saved program is read back, and a truncated file refused, exactly if
  the three upper bytes of its length are the same

A file is the list of its bytes; memory does not run out.
-/

namespace Libfsm

open Lib

variable {ops f : List (BitVec 8)}

/-! ## §1 Model -/

/-- What `enum dfavm_io_result` has for a load that fails. -/
inductive DfavmIoError where
  | errorReading
  | badHeader
  | unsupportedVersion
  | shortRead
  deriving DecidableEq, Repr

def dfavmMagic : List (BitVec 8) := [0x44, 0x46, 0x41, 0x56, 0x4d, 0x24]

/-- `DFAVM_VARENC_MAJOR` and `DFAVM_VARENC_MINOR` -/
def dfavmVarenc : List (BitVec 8) := [0x00, 0x01]

/-- `fsm_dfavm_save`, and `dfavm_v1_save` that it calls. -/
def fsmDfavmSave (ops : List (BitVec 8)) : List (BitVec 8) :=
  dfavmMagic ++ dfavmVarenc ++ littleEndian 4 (BitVec.ofNat 32 ops.length) ++ ops

/-- The length that `dfavm_load_v1` makes of the four bytes; the last two are not used. -/
def ilenOf (ilen : List (BitVec 8)) : BitVec 32 :=
  packed32 (ilen.getD 0 0) (ilen.getD 1 0) (ilen.getD 1 0) (ilen.getD 1 0)

def dfavmLoadV1 (f : List (BitVec 8)) : Except DfavmIoError (List (BitVec 8)) :=
  if f.length < 4 then .error .errorReading
  else
    let len := (ilenOf (f.take 4)).toNat
    let instr := (f.drop 4).take len
    if instr.length ≠ len then
      .error (if 0 < instr.length then .shortRead else .errorReading)
    else .ok instr

def fsmDfavmLoad (f : List (BitVec 8)) : Except DfavmIoError (List (BitVec 8)) :=
  if f.length < 8 then .error .errorReading
  else if f.take 6 ≠ dfavmMagic then .error .badHeader
  else if (f.drop 6).take 2 = dfavmVarenc then dfavmLoadV1 (f.drop 8)
  else .error .unsupportedVersion

/-! ## §2 Lengths -/

/-- The length that is read back of the length that was written. -/
def lengthRead (n : ℕ) : ℕ := (ilenOf (littleEndian 4 (BitVec.ofNat 32 n))).toNat

/-- The three upper bytes of a length are the same. -/
def UpperBytesEqual (n : ℕ) : Prop := n / 2 ^ 16 % 2 ^ 8 = n / 2 ^ 8 % 2 ^ 8 ∧
  n / 2 ^ 24 % 2 ^ 8 = n / 2 ^ 8 % 2 ^ 8

instance : DecidablePred UpperBytesEqual := fun _ => inferInstanceAs (Decidable (_ ∧ _))

theorem lengthRead_eq (n : ℕ) :
    lengthRead n = n / 2 ^ 8 % 2 ^ 8 * (2 ^ 24 + 2 ^ 16 + 2 ^ 8) + n % 2 ^ 8 := by
  have hbytes : littleEndian 4 (BitVec.ofNat 32 n) =
      [(BitVec.ofNat 32 n).extractLsb' 0 8, (BitVec.ofNat 32 n).extractLsb' 8 8,
        (BitVec.ofNat 32 n).extractLsb' 16 8, (BitVec.ofNat 32 n).extractLsb' 24 8] := rfl
  simp only [lengthRead, hbytes, ilenOf, List.getD_cons_zero, List.getD_cons_succ, toNat_packed32,
    BitVec.extractLsb'_toNat, Nat.shiftRight_eq_div_pow, BitVec.toNat_ofNat]
  omega

theorem lengthRead_eq_iff {n : ℕ} (hn : n < 2 ^ 32) : lengthRead n = n ↔ UpperBytesEqual n := by
  rw [lengthRead_eq, UpperBytesEqual]
  -- a number is its four bytes
  have hbytes : n = n / 2 ^ 24 % 2 ^ 8 * 2 ^ 24 + n / 2 ^ 16 % 2 ^ 8 * 2 ^ 16 +
      n / 2 ^ 8 % 2 ^ 8 * 2 ^ 8 + n % 2 ^ 8 := by omega
  have hlt : ∀ m, m % 2 ^ 8 < 2 ^ 8 := fun m => Nat.mod_lt m (Nat.two_pow_pos 8)
  have h₂ := hlt (n / 2 ^ 16)
  have h₀ := hlt n
  generalize n / 2 ^ 24 % 2 ^ 8 = b₃ at *
  generalize n / 2 ^ 16 % 2 ^ 8 = b₂ at *
  omega

/-! ## §3 Files -/

/-- Up to the program, a prefix of a saved file is the saved file. -/
theorem fsmDfavmLoad_take (ops : List (BitVec 8)) {k : ℕ} (hk : 12 ≤ k) :
    fsmDfavmLoad ((fsmDfavmSave ops).take k) =
      if ((ops.take (k - 12)).take (lengthRead ops.length)).length ≠ lengthRead ops.length then
        .error (if 0 < ((ops.take (k - 12)).take (lengthRead ops.length)).length
          then .shortRead else .errorReading)
      else .ok ((ops.take (k - 12)).take (lengthRead ops.length)) := by
  obtain ⟨k, rfl⟩ := Nat.exists_eq_add_of_le' hk
  rfl

/-- A file without a whole header or a whole length is refused. -/
theorem fsmDfavmLoad_take_of_lt {k : ℕ} (hk : k < 12) :
    fsmDfavmLoad ((fsmDfavmSave ops).take k) = .error .errorReading := by
  interval_cases k <;> rfl

/-- What is expected of saving: the program is read back, and a file that lost some of its end is
refused. -/
structure LoadsBack (ops : List (BitVec 8)) : Prop where
  whole : fsmDfavmLoad (fsmDfavmSave ops) = .ok ops
  truncated : ∀ k < (fsmDfavmSave ops).length,
    ∃ e, fsmDfavmLoad ((fsmDfavmSave ops).take k) = .error e

theorem length_fsmDfavmSave (ops : List (BitVec 8)) :
    (fsmDfavmSave ops).length = ops.length + 12 := by
  simp [fsmDfavmSave, dfavmMagic, dfavmVarenc, littleEndian]
  omega

theorem fsmDfavmLoad_save :
    fsmDfavmLoad (fsmDfavmSave ops) = .ok ops ↔ lengthRead ops.length = ops.length := by
  have hload := fsmDfavmLoad_take ops (Nat.le_add_left 12 ops.length)
  rw [← length_fsmDfavmSave, List.take_length, length_fsmDfavmSave, Nat.add_sub_cancel,
    List.take_length] at hload
  rw [hload]
  constructor
  · intro h
    split at h
    · cases h
    · rename_i hlen
      rw [not_not, Except.ok.inj h] at hlen
      exact hlen.symm
  · intro h
    rw [h, List.take_length, if_neg (by simp)]

/-- **Saved bytecode loads back** exactly if the three upper bytes of its length are the same. -/
theorem fsmDfavmLoad_save_iff (ops : List (BitVec 8)) (hlen : ops.length < 2 ^ 32) :
    LoadsBack ops ↔ UpperBytesEqual ops.length := by
  rw [← lengthRead_eq_iff hlen, ← fsmDfavmLoad_save]
  refine ⟨LoadsBack.whole, fun hwhole => ⟨hwhole, fun k hk => ?_⟩⟩
  rw [length_fsmDfavmSave] at hk
  rcases lt_or_ge k 12 with hlt | hge
  · exact ⟨_, fsmDfavmLoad_take_of_lt hlt⟩
  · -- the length is right, so the program is too short
    rw [fsmDfavmLoad_take ops hge, fsmDfavmLoad_save.mp hwhole, if_pos (by simp; omega)]
    exact ⟨_, rfl⟩

/-- The upper bytes of this length are all 1. -/
theorem fsmDfavmLoad_save_iff_long :
    LoadsBack (List.replicate 0x01010103 0x08#8) ∧ UpperBytesEqual 0x01010103 := by
  have hupper : UpperBytesEqual 0x01010103 := by decide
  refine ⟨(fsmDfavmLoad_save_iff _ ?_).mpr ?_, hupper⟩
  · rw [List.length_replicate]
    norm_num
  · rw [List.length_replicate]
    exact hupper

theorem not_loadsBack_two_hundred_fifty_six : ¬ LoadsBack (List.replicate 256 0x08#8) := by
  intro h
  have hread := fsmDfavmLoad_save.mp h.whole
  rw [lengthRead_eq, List.length_replicate] at hread
  omega

end Libfsm
