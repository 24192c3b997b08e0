import Mathlib.Data.List.Perm.Subperm
import Mathlib.Data.Nat.ModEq
import Mathlib.Data.Nat.Factorization.Basic
import Mathlib.Logic.Function.Iterate
import Mathlib.Tactic.Ring

/-!
# Linear Congruential Generators

The generator `x ↦ a * x + c` modulo a power of two, with `a` one more than a multiple of four and
`c` odd, visits all numbers below the modulus before it repeats itself.

- `affine`, `lcgStep`: one step, without and with the modulus
- `iterate_two_pow_modEq`: what `2 ^ k` steps do to the lowest bits
- `lcgOrbit_perm`: a whole period is a permutation of all numbers below the modulus
- `lcgVisits`: the numbers below a bound, in the order in which they are visited
-/

namespace Libfsm.Lib

open Function

/-! ## §1 Without A Modulus -/

/-- One step. -/
def affine (a c x : ℕ) : ℕ := a * x + c

section Affine

variable {a c : ℕ} (ha : a % 4 = 1) (hc : c % 2 = 1)
include ha hc

/-- `2 ^ k` steps are one affine map, whose coefficients are known to enough bits. -/
theorem exists_iterate_two_pow (k : ℕ) :
    ∃ u o, ∀ x, (affine a c)^[2 ^ k] x = (1 + 2 ^ (k + 2) * u) * x + 2 ^ k * (2 * o + 1) := by
  induction k with
  | zero =>
    refine ⟨a / 4, c / 2, fun x => ?_⟩
    have ha' : a = 1 + 2 ^ 2 * (a / 4) := by omega
    have hc' : c = 2 * (c / 2) + 1 := by omega
    rw [pow_zero, one_mul, ← ha', ← hc']
    rfl
  | succ k ih =>
    obtain ⟨u, o, hk⟩ := ih
    refine ⟨u + 2 ^ (k + 1) * u * u, o + 2 ^ k * u * (2 * o + 1), fun x => ?_⟩
    rw [pow_succ, mul_two, iterate_add_apply, hk, hk]
    ring

/-- `2 ^ k` steps turn bit `k` around and leave the bits below it. -/
theorem iterate_two_pow_modEq (k x : ℕ) : (affine a c)^[2 ^ k] x ≡ x + 2 ^ k [MOD 2 ^ (k + 1)] := by
  obtain ⟨u, o, hk⟩ := exists_iterate_two_pow ha hc k
  have hsum : (affine a c)^[2 ^ k] x = x + 2 ^ k + 2 ^ (k + 1) * (2 * u * x + o) := by
    rw [hk]
    ring
  rw [hsum]
  exact Nat.add_mul_mod_self_left _ _ _

theorem iterate_two_pow_mul_modEq (k j x : ℕ) :
    (affine a c)^[2 ^ k * j] x ≡ x + 2 ^ k * j [MOD 2 ^ (k + 1)] := by
  induction j with
  | zero => rfl
  | succ j ih =>
    have hsplit : 2 ^ k * (j + 1) = 2 ^ k + 2 ^ k * j := by ring
    rw [hsplit, iterate_add_apply]
    refine (iterate_two_pow_modEq ha hc k _).trans ?_
    rw [add_comm (2 ^ k), ← add_assoc]
    exact ih.add_right _

/-- Fewer than `2 ^ k` steps do not lead back to a number with the same `k` lowest bits. -/
theorem not_iterate_modEq {k d : ℕ} (hpos : 0 < d) (hd : d < 2 ^ k) (x : ℕ) :
    ¬ (affine a c)^[d] x ≡ x [MOD 2 ^ k] := by
  intro hmod
  -- bit `e` is turned around an odd number of times
  obtain ⟨e, o, hodd, rfl⟩ := Nat.exists_eq_two_pow_mul_odd hpos.ne'
  have hek : e + 1 ≤ k := by
    apply (Nat.pow_lt_pow_iff_right (Nat.lt_add_one 1)).mp
    exact (Nat.le_mul_of_pos_right _ hodd.pos).trans_lt hd
  have hback : x + 2 ^ e * o ≡ x [MOD 2 ^ (e + 1)] :=
    (iterate_two_pow_mul_modEq ha hc e o x).symm.trans (hmod.of_dvd (Nat.pow_dvd_pow 2 hek))
  have hdvd : 2 ^ (e + 1) ∣ 2 ^ e * o := by
    have hzero : x + 2 ^ e * o ≡ x + 0 [MOD 2 ^ (e + 1)] := hback
    exact (Nat.modEq_zero_iff_dvd.mp (Nat.ModEq.add_left_cancel' x hzero))
  rw [pow_succ, Nat.mul_dvd_mul_iff_left (Nat.two_pow_pos e)] at hdvd
  exact (Nat.not_even_iff_odd.mpr hodd) (even_iff_two_dvd.mpr hdvd)

end Affine

/-! ## §2 Modulo A Power Of Two -/

/-- One step. -/
def lcgStep (a c m x : ℕ) : ℕ := (a * x + c) % m

theorem lcgStep_iterate_succ (a c m i x : ℕ) :
    (lcgStep a c m)^[i + 1] x = (affine a c)^[i + 1] x % m := by
  induction i with
  | zero => rfl
  | succ i ih =>
    rw [iterate_succ_apply', ih, iterate_succ_apply' (affine a c) (i + 1)]
    exact ((Nat.mod_modEq _ m).mul_left a).add_right c

/-- The numbers that a whole period visits, in order. -/
def lcgOrbit (a c m x : ℕ) : List ℕ := (List.range m).map fun i => (lcgStep a c m)^[i + 1] x

/-- The numbers below `n` that it visits, in order. -/
def lcgVisits (a c m x n : ℕ) : List ℕ := (lcgOrbit a c m x).filter fun y => decide (y < n)

section Period

variable {a c : ℕ} (ha : a % 4 = 1) (hc : c % 2 = 1)
include ha hc

theorem lcgOrbit_nodup (k x : ℕ) : (lcgOrbit a c (2 ^ k) x).Nodup := by
  refine List.pairwise_map.mpr (List.pairwise_lt_range.imp_of_mem ?_)
  -- of two equal numbers the later one would be met again after fewer than `2 ^ k` steps
  intro i j _ hj hij heq
  rw [List.mem_range] at hj
  rw [lcgStep_iterate_succ, lcgStep_iterate_succ] at heq
  have hsplit : j + 1 = (j - i) + (i + 1) := by omega
  have hlt : j - i < 2 ^ k := (Nat.sub_le j i).trans_lt hj
  rw [hsplit, iterate_add_apply _ (j - i)] at heq
  exact not_iterate_modEq ha hc (Nat.sub_pos_of_lt hij) hlt _ heq.symm

/-- **Full period**. -/
theorem lcgOrbit_perm (k x : ℕ) : (lcgOrbit a c (2 ^ k) x).Perm (List.range (2 ^ k)) := by
  have hsub : lcgOrbit a c (2 ^ k) x ⊆ List.range (2 ^ k) := by
    intro y hy
    obtain ⟨i, -, rfl⟩ := List.mem_map.mp hy
    rw [List.mem_range, iterate_succ_apply']
    exact Nat.mod_lt _ (Nat.two_pow_pos k)
  apply ((lcgOrbit_nodup ha hc k x).subperm hsub).perm_of_length_le
  simp [lcgOrbit]

theorem lcgVisits_perm {k n : ℕ} (hn : n ≤ 2 ^ k) (x : ℕ) :
    (lcgVisits a c (2 ^ k) x n).Perm (List.range n) := by
  refine ((lcgOrbit_perm ha hc k x).filter _).trans ?_
  have hmem : ∀ y, y ∈ (List.range (2 ^ k)).filter (fun y => decide (y < n)) ↔
      y ∈ List.range n := by
    simp only [List.mem_filter, List.mem_range, decide_eq_true_eq]
    omega
  exact (List.perm_ext_iff_of_nodup (List.nodup_range.filter _) List.nodup_range).mpr hmem

end Period

end Libfsm.Lib
