import Mathlib.Computability.Language
import Mathlib.Data.ENat.Basic
import Mathlib.Order.CompletePartialOrder
import Mathlib.Tactic.Ring

/-!
# Counted Repetition

The languages `L{lo,hi}` of a regular expression's counted repetition, with an upper bound that
may be infinite.

- `repeats`: between `lo` and `hi` words of a language, one after another
- `repeats_pow`: blocks of repetitions
- `exists_blocks_iff`: when the numbers that nested counts allow have no gaps
- `repeats_repeats`: two nested repetitions are a single one then
-/

namespace Libfsm.Lib

open Language

variable {α : Type*} {L : Language α}

variable {lo : ℕ} {hi : ℕ∞}

/-! ## §1 Repetition -/

/-- The words made of at least `lo` and at most `hi` words of `L`. -/
def repeats (L : Language α) (lo : ℕ) (hi : ℕ∞) : Language α :=
  {w | ∃ k : ℕ, lo ≤ k ∧ (k : ℕ∞) ≤ hi ∧ w ∈ L ^ k}

theorem mem_repeats {w : List α} :
    w ∈ repeats L lo hi ↔ ∃ k : ℕ, lo ≤ k ∧ (k : ℕ∞) ≤ hi ∧ w ∈ L ^ k := Iff.rfl

@[simp] theorem repeats_one_one : repeats L 1 1 = L := by
  ext w
  constructor
  · rintro ⟨k, hlo, hhi, hw⟩
    have hk : k = 1 := le_antisymm (by exact_mod_cast hhi) hlo
    rwa [hk, pow_one] at hw
  · intro hw
    exact ⟨1, le_rfl, le_rfl, by rwa [pow_one]⟩

@[simp] theorem repeats_zero_zero : repeats L 0 0 = 1 := by
  ext w
  constructor
  · rintro ⟨k, -, hhi, hw⟩
    have hk : k = 0 := by exact_mod_cast le_antisymm hhi bot_le
    rwa [hk] at hw
  · intro hw
    exact ⟨0, le_rfl, le_rfl, by rwa [pow_zero]⟩

theorem repeats_one_left (h : (lo : ℕ∞) ≤ hi) : repeats (1 : Language α) lo hi = 1 := by
  ext w
  simp only [mem_repeats, one_pow]
  exact ⟨fun ⟨_, _, _, hw⟩ => hw, fun hw => ⟨lo, le_rfl, h, hw⟩⟩

/-- Nothing can be repeated zero times only. -/
theorem repeats_zero_left_zero : repeats (0 : Language α) 0 hi = 1 := by
  ext w
  constructor
  · rintro ⟨k, -, -, hw⟩
    rcases Nat.eq_zero_or_pos k with rfl | hk
    · rwa [pow_zero] at hw
    · rw [zero_pow hk.ne'] at hw
      exact absurd hw (notMem_zero w)
  · intro hw
    exact ⟨0, le_rfl, bot_le, by rwa [pow_zero]⟩

theorem repeats_zero_left_pos (h : 0 < lo) : repeats (0 : Language α) lo hi = 0 := by
  ext w
  constructor
  · rintro ⟨k, hlo, -, hw⟩
    rwa [zero_pow (h.trans_le hlo).ne'] at hw
  · intro hw
    exact absurd hw (notMem_zero w)

theorem pow_le_pow_of_nil_mem (h : [] ∈ L) {k m : ℕ} (hkm : k ≤ m) : L ^ k ≤ L ^ m := by
  have hone : (1 : Language α) ≤ L := by
    intro w hw
    rw [(mem_one w).mp hw]
    exact h
  exact pow_le_pow_right₀ hone hkm

/-- Missing repetitions of a language with the empty word can be made up by the empty word. -/
theorem repeats_of_nil_mem (h : [] ∈ L) (hle : (lo : ℕ∞) ≤ hi) :
    repeats L lo hi = repeats L 0 hi := by
  ext w
  constructor
  · rintro ⟨k, -, hhi, hw⟩
    exact ⟨k, Nat.zero_le k, hhi, hw⟩
  · rintro ⟨k, -, hhi, hw⟩
    rcases le_total lo k with hk | hk
    · exact ⟨k, hk, hhi, hw⟩
    · exact ⟨lo, le_rfl, hle, pow_le_pow_of_nil_mem h hk hw⟩

/-- Unbounded repetition is the Kleene star. -/
theorem repeats_zero_top : repeats L 0 ⊤ = KStar.kstar L := by
  ext w
  rw [kstar_eq_iSup_pow, mem_iSup]
  exact ⟨fun ⟨k, _, _, hw⟩ => ⟨k, hw⟩, fun ⟨k, hw⟩ => ⟨k, Nat.zero_le k, le_top, hw⟩⟩

/-! ## §2 Nested Repetition -/

/-- A number between `h * (m + 1)` and `i * (m + 1)` is one between `h` and `i`, and one between
`h * m` and `i * m`. -/
private theorem exists_add_eq {h : ℕ} {i : ℕ∞} (hi : (h : ℕ∞) ≤ i) {m n : ℕ}
    (hlo : h * (m + 1) ≤ n) (hhi : (n : ℕ∞) ≤ i * ((m + 1 : ℕ) : ℕ∞)) :
    ∃ a b : ℕ, a + b = n ∧ h * m ≤ a ∧ (a : ℕ∞) ≤ i * (m : ℕ∞) ∧ h ≤ b ∧ (b : ℕ∞) ≤ i := by
  induction i using ENat.recTopCoe with
  | top =>
    -- all that exceeds the minimum goes to the last block
    refine ⟨h * m, n - h * m, ?_, le_rfl, ?_, ?_, le_top⟩
    · rw [Nat.mul_succ] at hlo
      omega
    · rw [Nat.cast_mul]
      exact mul_le_mul_left le_top _
    · rw [Nat.mul_succ] at hlo
      omega
  | coe i =>
    have hi' : h ≤ i := by exact_mod_cast hi
    have hn : n ≤ i * (m + 1) := by exact_mod_cast hhi
    have hmul : h * m ≤ i * m := Nat.mul_le_mul_right m hi'
    rw [Nat.mul_succ] at hlo hn
    -- the last block is as small as the other blocks allow
    refine ⟨min (i * m) (n - h), n - min (i * m) (n - h), ?_, ?_, ?_, ?_, ?_⟩
    · omega
    · omega
    · exact_mod_cast min_le_left (i * m) (n - h)
    · omega
    · have hlast : n - min (i * m) (n - h) ≤ i := by omega
      exact_mod_cast hlast

/-- `m` blocks of between `lo` and `hi` repetitions. -/
theorem repeats_pow (h : (lo : ℕ∞) ≤ hi) (m : ℕ) :
    repeats L lo hi ^ m = repeats L (lo * m) (hi * m) := by
  induction m with
  | zero => simp
  | succ m ih =>
    ext w
    rw [pow_succ, ih]
    constructor
    · rintro ⟨u, ⟨a, halo, hahi, hu⟩, v, ⟨b, hblo, hbhi, hv⟩, rfl⟩
      refine ⟨a + b, ?_, ?_, ?_⟩
      · exact add_le_add halo hblo
      · rw [Nat.cast_succ, mul_add, mul_one]
        exact add_le_add hahi hbhi
      · rw [pow_add]
        exact append_mem_mul hu hv
    · rintro ⟨n, hlo, hhi, hw⟩
      obtain ⟨a, b, rfl, halo, hahi, hblo, hbhi⟩ := exists_add_eq h hlo hhi
      rw [pow_add] at hw
      obtain ⟨u, hu, v, hv, rfl⟩ := hw
      exact ⟨u, ⟨a, halo, hahi, hu⟩, v, ⟨b, hblo, hbhi, hv⟩, rfl⟩

section Nested

variable {h j : ℕ} {i k : ℕ∞} (hle : (h : ℕ∞) ≤ i)
include hle

/-- The sums of `m` numbers between `h` and `i`. -/
theorem exists_sum_iff {m t : ℕ} : (∃ ns : List ℕ, ns.length = m ∧
    (∀ n ∈ ns, h ≤ n ∧ (n : ℕ∞) ≤ i) ∧ ns.sum = t) ↔ h * m ≤ t ∧ (t : ℕ∞) ≤ i * m := by
  induction m generalizing t with
  | zero => simp [eq_comm]
  | succ m ih =>
    constructor
    · intro ⟨ns, hlen, hns, hsum⟩
      obtain ⟨n, ns, rfl⟩ := List.exists_cons_of_length_eq_add_one hlen
      obtain ⟨hn, hns⟩ := List.forall_mem_cons.mp hns
      obtain ⟨hlo, hhi⟩ := ih.mp ⟨ns, Nat.succ.inj hlen, hns, rfl⟩
      rw [← hsum, List.sum_cons, Nat.mul_succ, add_comm, Nat.cast_add, Nat.cast_succ, mul_add,
        mul_one, add_comm (n : ℕ∞)]
      exact ⟨add_le_add hn.1 hlo, add_le_add hhi hn.2⟩
    · intro ⟨hlo, hhi⟩
      obtain ⟨a, b, rfl, halo, hahi, hb⟩ := exists_add_eq hle hlo hhi
      obtain ⟨ns, hlen, hns, rfl⟩ := ih.mpr ⟨halo, hahi⟩
      exact ⟨b :: ns, congrArg Nat.succ hlen, List.forall_mem_cons.mpr ⟨hb, hns⟩, add_comm ..⟩

variable (hk : (j : ℕ∞) ≤ k) (hgap : (j : ℕ∞) = k ∨ (h * (j + 1 : ℕ) : ℕ∞) ≤ i * j + 1)
include hk hgap

/-- The numbers that between `j` and `k` blocks allow have no gaps if there is none between the
numbers that `j` and those that `j + 1` blocks allow: from there on the blocks only get closer. -/
theorem exists_blocks_iff {n : ℕ} :
    (∃ m : ℕ, j ≤ m ∧ (m : ℕ∞) ≤ k ∧ h * m ≤ n ∧ (n : ℕ∞) ≤ i * m) ↔
      h * j ≤ n ∧ (n : ℕ∞) ≤ i * k := by
  constructor
  · intro ⟨m, hjm, hmk, hlo, hhi⟩
    exact ⟨(Nat.mul_le_mul_left h hjm).trans hlo, hhi.trans (mul_le_mul_right hmk i)⟩
  · intro ⟨hlo, hhi⟩
    -- with `d` more than `j` blocks, the maximum is large enough
    have hex : ∃ d : ℕ, ((j + d : ℕ) : ℕ∞) ≤ k ∧ (n : ℕ∞) ≤ i * (j + d : ℕ) := by
      induction k using ENat.recTopCoe with
      | coe k =>
        have hjk : j ≤ k := by exact_mod_cast hk
        exact ⟨k - j, by rw [Nat.add_sub_cancel' hjk], by rwa [Nat.add_sub_cancel' hjk]⟩
      | top =>
        refine ⟨n, le_top, ?_⟩
        rcases eq_or_ne i 0 with rfl | hne
        · rwa [zero_mul] at hhi ⊢
        · calc (n : ℕ∞) ≤ 1 * (j + n : ℕ) := by
                rw [one_mul]
                exact_mod_cast Nat.le_add_left n j
            _ ≤ i * (j + n : ℕ) := mul_le_mul_left (Order.one_le_iff_ne_zero.mpr hne) _
    classical
    -- take the fewest blocks; one block less would not do, so the minimum is met as well
    let d := Nat.find hex
    have hd : ((j + d : ℕ) : ℕ∞) ≤ k ∧ (n : ℕ∞) ≤ i * (j + d : ℕ) := Nat.find_spec hex
    refine ⟨j + d, Nat.le_add_right j d, hd.1, ?_, hd.2⟩
    rcases hzero : d with _ | c
    · exact hlo
    · have hmin : ¬ (((j + c : ℕ) : ℕ∞) ≤ k ∧ (n : ℕ∞) ≤ i * (j + c : ℕ)) :=
        Nat.find_min hex (show c < d by omega)
      have hck : ((j + c : ℕ) : ℕ∞) ≤ k := by
        refine le_trans ?_ hd.1
        exact_mod_cast (show j + c ≤ j + d by omega)
      have hlt : i * (j + c : ℕ) < (n : ℕ∞) := not_le.mp fun hle' => hmin ⟨hck, hle'⟩
      have hgap' : (h * (j + 1 : ℕ) : ℕ∞) ≤ i * j + 1 := by
        refine hgap.resolve_left fun heq => ?_
        have hcon : ((j + d : ℕ) : ℕ∞) ≤ (j : ℕ∞) := heq ▸ hd.1
        have hcon' : j + d ≤ j := by exact_mod_cast hcon
        omega
      have hbound : ((h * (j + (c + 1)) : ℕ) : ℕ∞) ≤ n := by
        calc ((h * (j + (c + 1)) : ℕ) : ℕ∞)
            = h * (j + 1 : ℕ) + h * c := by push_cast; ring
          _ ≤ (i * j + 1) + i * c := add_le_add hgap' (mul_le_mul_left hle _)
          _ = i * (j + c : ℕ) + 1 := by push_cast; ring
          _ ≤ n := Order.add_one_le_of_lt hlt
      exact_mod_cast hbound

/-- Two nested repetitions are a single one if the numbers they allow have no gaps. -/
theorem repeats_repeats : repeats (repeats L h i) j k = repeats L (h * j) (i * k) := by
  ext w
  simp only [mem_repeats, repeats_pow hle]
  constructor
  · intro ⟨m, hjm, hmk, n, hlo, hhi, hw⟩
    obtain ⟨hlo', hhi'⟩ := (exists_blocks_iff hle hk hgap).mp ⟨m, hjm, hmk, hlo, hhi⟩
    exact ⟨n, hlo', hhi', hw⟩
  · intro ⟨n, hlo, hhi, hw⟩
    obtain ⟨m, hjm, hmk, hlo', hhi'⟩ := (exists_blocks_iff hle hk hgap).mpr ⟨hlo, hhi⟩
    exact ⟨m, hjm, hmk, n, hlo', hhi', hw⟩

end Nested

end Libfsm.Lib
