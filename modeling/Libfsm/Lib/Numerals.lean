import Mathlib.Data.Nat.Digits.Lemmas
import Mathlib.Tactic

/-!
# Numerals

Numbers written in one base and read in another, and numbers packed into the fields of a word.

- `readNumeral`: the value of a text of digits
- `readNumeral_toDigits`: what a number written in base `b` is when read in a base that is not
  smaller
- `ofDigits_digits_eq_self_iff`: it is the same number only if it has one digit
- `toNat_or_above`, `toNat_or_below`: one more field in a word
-/

namespace Libfsm.Lib

/-- The value of a digit, for bases up to 16. -/
def digitValue (c : Char) : Option ℕ :=
  if '0' ≤ c ∧ c ≤ '9' then some (c.toNat - '0'.toNat)
  else if 'a' ≤ c ∧ c ≤ 'f' then some (c.toNat - 'a'.toNat + 10)
  else if 'A' ≤ c ∧ c ≤ 'F' then some (c.toNat - 'A'.toNat + 10)
  else none

/-- One more digit. -/
def readDigit (base n : ℕ) (c : Char) : Option ℕ :=
  (digitValue c).bind fun d => if d < base then some (base * n + d) else none

/-- The value of a text, if all of it is digits of the base. -/
def readNumeral (base : ℕ) (text : List Char) : Option ℕ := text.foldlM (readDigit base) 0

theorem digitValue_digitChar {d : ℕ} (hd : d < 16) : digitValue (Nat.digitChar d) = some d := by
  interval_cases d <;> decide

theorem readDigit_digitChar {base d : ℕ} (hbase : base ≤ 16) (hd : d < base) (n : ℕ) :
    readDigit base n (Nat.digitChar d) = some (base * n + d) := by
  rw [readDigit, digitValue_digitChar (by omega), Option.bind_some, if_pos hd]

variable {b base : ℕ}

/-- **Reading** a numeral of base `b` in a base that has its digits. -/
theorem readNumeral_toDigits (hb : 1 < b) (hle : b ≤ base) (hbase : base ≤ 16) (n : ℕ) :
    readNumeral base (Nat.toDigits b n) = some (Nat.ofDigits base (Nat.digits b n)) := by
  induction n using Nat.strongRecOn with
  | ind n ih =>
    rcases lt_or_ge n b with hn | hn
    · rw [Nat.toDigits_of_lt_base hn, readNumeral, List.foldlM_cons,
        readDigit_digitChar hbase (by omega)]
      rcases Nat.eq_zero_or_pos n with rfl | hpos
      · simp
      · simp [Nat.digits_of_lt b n hpos.ne' hn]
    · have hdiv : n / b < n := Nat.div_lt_self (by omega) hb
      have hmod : n % b < base := (Nat.mod_lt n (by omega)).trans_le hle
      have ih := ih (n / b) hdiv
      rw [readNumeral] at ih
      have hdigits : Nat.ofDigits base (Nat.digits b n) =
          n % b + base * Nat.ofDigits base (Nat.digits b (n / b)) := by
        rw [Nat.digits_def' hb (Nat.zero_lt_of_lt hdiv), Nat.ofDigits_cons]
      rw [Nat.toDigits_of_base_le hb hn, readNumeral, List.foldlM_append, ih,
        Option.bind_eq_bind, Option.bind_some, List.foldlM_cons, readDigit_digitChar hbase hmod,
        hdigits, add_comm]
      rfl

/-- Numerals of a base are different for different numbers. -/
theorem toDigits_injective (hb : 1 < b) (hbase : b ≤ 16) :
    Function.Injective (Nat.toDigits b) := by
  intro m n h
  have hm := readNumeral_toDigits hb le_rfl hbase m
  have hn := readNumeral_toDigits hb le_rfl hbase n
  rw [h, hn] at hm
  simpa [Nat.ofDigits_digits] using hm.symm

theorem le_ofDigits_digits (hle : b ≤ base) (n : ℕ) :
    n ≤ Nat.ofDigits base (Nat.digits b n) := by
  calc n = Nat.ofDigits b (Nat.digits b n) := (Nat.ofDigits_digits b n).symm
    _ ≤ Nat.ofDigits base (Nat.digits b n) := Nat.ofDigits_monotone _ hle

/-- A number read in a larger base than it was written in is the same only if it has one
digit. -/
theorem ofDigits_digits_eq_self_iff (hb : 1 < b) (hlt : b < base) {n : ℕ} :
    Nat.ofDigits base (Nat.digits b n) = n ↔ n < b := by
  constructor
  · intro h
    by_contra hge
    have hdiv : 0 < n / b := Nat.div_pos (Nat.le_of_not_lt hge) (by omega)
    have hle : n / b ≤ Nat.ofDigits base (Nat.digits b (n / b)) :=
      le_ofDigits_digits hlt.le (n / b)
    rw [Nat.digits_def' hb (by omega), Nat.ofDigits_cons] at h
    -- the digits before the last one count for more
    have hmore : b * (n / b) < base * Nat.ofDigits base (Nat.digits b (n / b)) :=
      calc b * (n / b) < base * (n / b) := Nat.mul_lt_mul_of_pos_right hlt hdiv
        _ ≤ base * Nat.ofDigits base (Nat.digits b (n / b)) := Nat.mul_le_mul_left base hle
    have hsplit := Nat.mod_add_div n b
    omega
  · intro h
    rcases Nat.eq_zero_or_pos n with rfl | hpos
    · simp
    · simp [Nat.digits_of_lt b n hpos.ne' h]

/-! ## Fields Of A Word -/

section Fields

variable {v w m n : ℕ} {x : BitVec w} {b : BitVec v}

theorem toNat_shiftLeft_setWidth (hb : b.toNat * 2 ^ n < 2 ^ w) :
    (b.setWidth w <<< n).toNat = b.toNat * 2 ^ n := by
  have hle : b.toNat ≤ b.toNat * 2 ^ n := Nat.le_mul_of_pos_right _ (Nat.two_pow_pos n)
  rw [BitVec.toNat_shiftLeft, BitVec.toNat_setWidth, Nat.shiftLeft_eq,
    Nat.mod_eq_of_lt (hle.trans_lt hb), Nat.mod_eq_of_lt hb]

/-- A field above all that is there already. -/
theorem toNat_or_above (hx : x.toNat < 2 ^ n) (hb : b.toNat * 2 ^ n < 2 ^ w) :
    (x ||| b.setWidth w <<< n).toNat = b.toNat * 2 ^ n + x.toNat := by
  rw [BitVec.or_comm, BitVec.toNat_or, toNat_shiftLeft_setWidth hb, mul_comm,
    Nat.two_pow_add_eq_or_of_lt hx]

/-- A field below all that is there already. -/
theorem toNat_or_below (hx : 2 ^ m ∣ x.toNat) (hb : b.toNat * 2 ^ n < 2 ^ m) (hm : m ≤ w) :
    (x ||| b.setWidth w <<< n).toNat = x.toNat + b.toNat * 2 ^ n := by
  obtain ⟨k, hk⟩ := hx
  have hw : 2 ^ m ≤ 2 ^ w := Nat.pow_le_pow_right Nat.two_pos hm
  rw [BitVec.toNat_or, toNat_shiftLeft_setWidth (hb.trans_le hw), hk,
    Nat.two_pow_add_eq_or_of_lt hb]

/-- What a mask leaves of a word. -/
theorem toNat_mask {y : BitVec w} (hy : y.toNat = 2 ^ n - 1) :
    (x &&& y).toNat = x.toNat % 2 ^ n := by
  rw [BitVec.toNat_and, hy, Nat.and_two_pow_sub_one_eq_mod]

end Fields

end Libfsm.Lib
