import Mathlib

/-! Numbers in a mixed radix: digit `k` is below `e k`, and the last digit is the least
significant. -/
namespace MixedRadix

open Finset

def digit (e : ℕ → ℕ) : ℕ → ℕ → ℕ → ℕ
  | 0, _, _ => 0
  | d + 1, x, k => if k = d then x % e d else digit e d (x / e d) k

variable {e y : ℕ → ℕ} {d x k : ℕ}

theorem digit_last : digit e (d + 1) x d = x % e d := if_pos rfl

theorem digit_succ (hk : k < d) : digit e (d + 1) x k = digit e d (x / e d) k :=
  if_neg (Nat.ne_of_lt hk)

theorem div_lt (hx : x < ∏ j ∈ range (d + 1), e j) : x / e d < ∏ j ∈ range d, e j := by
  rw [prod_range_succ, Nat.mul_comm] at hx
  exact Nat.div_lt_of_lt_mul hx

theorem digit_lt (hx : x < ∏ j ∈ range d, e j) (hk : k < d) : digit e d x k < e k := by
  induction d generalizing x with
  | zero => omega
  | succ d ih =>
    rcases Nat.lt_succ_iff_lt_or_eq.mp hk with hlt | rfl
    · rw [digit_succ hlt]
      exact ih (div_lt hx) hlt
    · rw [digit_last]
      refine Nat.mod_lt x (Nat.pos_of_ne_zero fun hzero => ?_)
      rw [prod_range_succ, hzero, Nat.mul_zero] at hx
      omega

theorem existsUnique_digits (hy : ∀ k < d, y k < e k) :
    ∃! x, x < ∏ j ∈ range d, e j ∧ ∀ k < d, digit e d x k = y k := by
  induction d with
  | zero =>
    refine ⟨0, ⟨by simp, fun k hk => by omega⟩, fun x hx => ?_⟩
    simpa using hx.1
  | succ d ih =>
    obtain ⟨x, ⟨hx, hdigits⟩, huniq⟩ := ih fun k hk => hy k (by omega)
    have hlast := hy d (by omega)
    have hpos : 0 < e d := Nat.zero_lt_of_lt hlast
    have hdiv : (y d + x * e d) / e d = x := by
      rw [Nat.add_mul_div_right _ _ hpos, Nat.div_eq_of_lt hlast, Nat.zero_add]
    refine ⟨y d + x * e d, ⟨?_, fun k hk => ?_⟩, fun z hz => ?_⟩
    · have hle : (x + 1) * e d ≤ (∏ j ∈ range d, e j) * e d := Nat.mul_le_mul_right _ hx
      rw [Nat.succ_mul] at hle
      rw [prod_range_succ]
      omega
    · rcases Nat.lt_succ_iff_lt_or_eq.mp hk with hlt | rfl
      · rw [digit_succ hlt, hdiv]
        exact hdigits k hlt
      · rw [digit_last, Nat.add_mul_mod_self_right, Nat.mod_eq_of_lt hlast]
    · have hquot : z / e d = x :=
        huniq _ ⟨div_lt hz.1, fun k hk => (digit_succ hk).symm.trans (hz.2 k (by omega))⟩
      have hrem : z % e d = y d := digit_last.symm.trans (hz.2 d (by omega))
      have hsplit := Nat.mod_add_div' z (e d)
      rw [hquot, hrem] at hsplit
      exact hsplit.symm

end MixedRadix
