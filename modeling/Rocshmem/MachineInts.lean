import Mathlib

/-! Values of C integer expressions, as integers, and positions in an array of blocks. -/
namespace MachineInts

def toInt (x : ℤ) : ℤ := x.bmod (2 ^ 32)

def toSizeT (x : ℤ) : ℤ := x % 2 ^ 64

theorem toInt_of_small {x : ℤ} (hlo : -2 ^ 31 ≤ x) (hhi : x < 2 ^ 31) : toInt x = x := by
  unfold toInt
  rw [Int.bmod_eq_of_le] <;> omega

theorem toInt_natCast {x : ℕ} (h : x < 2 ^ 31) : toInt x = x :=
  toInt_of_small (by omega) (by omega)

theorem block_div {n a x : ℕ} (hx : x < n) : (a * n + x) / n = a := by
  rw [Nat.add_comm, Nat.add_mul_div_right _ _ (by omega), Nat.div_eq_of_lt hx, Nat.zero_add]

theorem block_unique {n a b x y : ℕ} (hx : x < n) (hy : y < n) (h : a * n + x = b * n + y) :
    a = b ∧ x = y := by
  obtain rfl : a = b := by rw [← block_div (a := a) hx, h, block_div hy]
  exact ⟨rfl, by omega⟩

end MachineInts
