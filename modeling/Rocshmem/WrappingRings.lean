import Mathlib

/-! Rings of a power of two of entries addressed by wrapping 32-bit positions, serial numbers
compared by a bit of their difference, and positions that share an entry of a ring. -/
namespace WrappingRings

theorem and_two_pow_ne_zero_iff (x i : ℕ) : x &&& 2 ^ i ≠ 0 ↔ x / 2 ^ i % 2 = 1 := by
  rw [Nat.and_two_pow, Nat.testBit_eq_decide_div_mod_eq]
  by_cases h : x / 2 ^ i % 2 = 1 <;> simp [h]

theorem sub_bit_iff (x y : UInt32) {i : ℕ} (hi : i < 32) :
    ((x - y) &&& UInt32.ofNat (2 ^ i) != 0) = true ↔ (x - y).toNat / 2 ^ i % 2 = 1 := by
  have hlt : 2 ^ i < 2 ^ 32 := Nat.pow_lt_pow_right (by decide) hi
  rw [bne_iff_ne, ne_eq, ← UInt32.toNat_inj, UInt32.toNat_and, UInt32.toNat_ofNat',
    Nat.mod_eq_of_lt hlt]
  exact and_two_pow_ne_zero_iff _ i

theorem toNat_and_mask (pos : ℕ) {k : ℕ} (hk : k ≤ 32) :
    (UInt32.ofNat pos &&& UInt32.ofNat (2 ^ k - 1)).toNat = pos % 2 ^ k := by
  have hd : 2 ^ k ∣ 2 ^ 32 := Nat.pow_dvd_pow 2 hk
  have hle := Nat.le_of_dvd (by decide) hd
  rw [UInt32.toNat_and, UInt32.toNat_ofNat', UInt32.toNat_ofNat',
    Nat.mod_eq_of_lt (by omega : 2 ^ k - 1 < 2 ^ 32), Nat.and_two_pow_sub_one_eq_mod,
    Nat.mod_mod_of_dvd _ hd]

theorem and_round_bit (pos : ℕ) {k : ℕ} (hk : k < 32) :
    (UInt32.ofNat pos &&& (UInt32.ofNat (2 ^ k - 1) + 1) == 0) = decide (pos / 2 ^ k % 2 = 0) := by
  have hpos := Nat.two_pow_pos k
  have hlt : 2 ^ k < 2 ^ 32 := Nat.pow_lt_pow_right (by decide) hk
  have hbit : (UInt32.ofNat (2 ^ k - 1) + 1).toNat = 2 ^ k := by
    rw [UInt32.toNat_add, UInt32.toNat_ofNat', UInt32.toNat_one]
    omega
  have hlow : pos % 2 ^ 32 / 2 ^ k % 2 = pos / 2 ^ k % 2 := by
    have := Nat.testBit_mod_two_pow pos 32 k
    simp only [Nat.testBit_eq_decide_div_mod_eq, hk, decide_true, Bool.true_and,
      decide_eq_decide] at this
    omega
  have hz := not_congr (and_two_pow_ne_zero_iff (pos % 2 ^ 32) k)
  rw [Bool.eq_iff_iff, beq_iff_eq, ← UInt32.toNat_inj, UInt32.toNat_and, hbit,
    UInt32.toNat_ofNat', decide_eq_true_iff]
  change _ = 0 ↔ _
  omega

section Entries

variable {n x y : ℕ}

theorem add_le_of_mod_eq (h : x % n = y % n) (hlt : x < y) : x + n ≤ y := by
  have hd : n ∣ y - x := (Nat.modEq_iff_dvd' hlt.le).mp h
  have := Nat.le_of_dvd (by omega) hd
  omega

theorem eq_of_mod_eq (h : x % n = y % n) (hx : x < y + n) (hy : y < x + n) : x = y := by
  rcases Nat.lt_trichotomy x y with hlt | heq | hgt
  · have := add_le_of_mod_eq h hlt
    omega
  · exact heq
  · have := add_le_of_mod_eq h.symm hgt
    omega

theorem two_rounds_of_parity (hn : 0 < n) (h : x % n = y % n) (hpar : x / n % 2 = y / n % 2)
    (hlt : x < y) : x + 2 * n ≤ y := by
  have hle := add_le_of_mod_eq h hlt
  have hx := Nat.div_add_mod x n
  have hy := Nat.div_add_mod y n
  have hdiv : x / n < y / n := by
    have := Nat.div_le_div_right (c := n) hle
    rw [Nat.add_div_right _ hn] at this
    omega
  have hmul : n * (x / n + 2) ≤ n * (y / n) := Nat.mul_le_mul_left n (by omega)
  rw [Nat.mul_add] at hmul
  omega

end Entries

end WrappingRings
