import Mathlib

/-! Bit masks stored as arrays of bytes: bit `i` is bit `i % 8` of byte `i / 8`. -/
namespace ByteMasks

abbrev Mask := ℕ → BitVec 8

namespace Mask

def zero : Mask := fun _ => 0#8

def unit (i : ℕ) : BitVec 8 := 1#8 <<< (i % 8)

def test (m : Mask) (i : ℕ) : Bool := (m (i / 8) &&& unit i) != 0#8

def set (m : Mask) (i : ℕ) : Mask := Function.update m (i / 8) (m (i / 8) ||| unit i)

def clear (m : Mask) (i : ℕ) : Mask := Function.update m (i / 8) (m (i / 8) &&& ~~~ unit i)

def band : List Mask → Mask
  | [] => zero
  | m :: ms => fun b => ms.foldl (fun x m' => x &&& m' b) (m b)

theorem unit_eq (i : ℕ) : unit i = BitVec.twoPow 8 (i % 8) := rfl

theorem getLsbD_unit (i j : ℕ) : (unit i).getLsbD (j % 8) = decide (i % 8 = j % 8) := by
  have hlt : i % 8 < 8 := Nat.mod_lt _ (by decide)
  rw [unit_eq, BitVec.getLsbD_twoPow]
  simp [hlt]

theorem test_eq_getLsbD (m : Mask) (i : ℕ) : m.test i = (m (i / 8)).getLsbD (i % 8) := by
  have hlt : i % 8 < 8 := Nat.mod_lt _ (by decide)
  have hne : BitVec.twoPow 8 (i % 8) ≠ 0#8 := by
    intro h
    have hbit := congrArg (fun x => BitVec.getLsbD x (i % 8)) h
    simp [hlt] at hbit
  rw [test, unit_eq, BitVec.and_twoPow]
  split <;> simp_all

theorem eq_of_div_mod {i j : ℕ} (hdiv : i / 8 = j / 8) (hmod : i % 8 = j % 8) : i = j := by
  omega

@[simp] theorem test_zero (i : ℕ) : zero.test i = false := by
  simp [test_eq_getLsbD, zero]

theorem test_set (m : Mask) (i j : ℕ) : (m.set i).test j = (decide (j = i) || m.test j) := by
  simp only [test_eq_getLsbD, set]
  by_cases hdiv : j / 8 = i / 8
  · rw [hdiv, Function.update_self, BitVec.getLsbD_or, getLsbD_unit, Bool.or_comm]
    congr 1
    rw [decide_eq_decide]
    exact ⟨fun h => eq_of_div_mod hdiv h.symm, fun h => by rw [h]⟩
  · have hne : j ≠ i := fun h => hdiv (by rw [h])
    rw [Function.update_of_ne hdiv]
    simp [hne]

theorem test_clear (m : Mask) (i j : ℕ) : (m.clear i).test j = (!decide (j = i) && m.test j) := by
  have hlt : j % 8 < 8 := Nat.mod_lt _ (by decide)
  simp only [test_eq_getLsbD, clear]
  by_cases hdiv : j / 8 = i / 8
  · rw [hdiv, Function.update_self, BitVec.getLsbD_and, BitVec.getLsbD_not, getLsbD_unit,
      decide_eq_true hlt, Bool.true_and, Bool.and_comm]
    congr 2
    rw [decide_eq_decide]
    exact ⟨fun h => eq_of_div_mod hdiv h.symm, fun h => by rw [h]⟩
  · have hne : j ≠ i := fun h => hdiv (by rw [h])
    rw [Function.update_of_ne hdiv]
    simp [hne]

theorem getLsbD_foldl_and (ms : List Mask) (b k : ℕ) (x : BitVec 8) :
    (ms.foldl (fun x m => x &&& m b) x).getLsbD k =
      (x.getLsbD k && ms.all fun m => (m b).getLsbD k) := by
  induction ms generalizing x with
  | nil => simp
  | cons m ms ih => rw [List.foldl_cons, ih, BitVec.getLsbD_and, List.all_cons, Bool.and_assoc]

theorem test_of_band {ms : List Mask} {i : ℕ} (h : (band ms).test i = true) {m : Mask}
    (hm : m ∈ ms) : m.test i = true := by
  cases ms with
  | nil => cases hm
  | cons m₀ ms =>
    rw [test_eq_getLsbD, band, getLsbD_foldl_and, Bool.and_eq_true] at h
    rw [test_eq_getLsbD]
    rcases List.mem_cons.mp hm with rfl | hmem
    · exact h.1
    · exact List.all_eq_true.mp h.2 m hmem

end Mask

end ByteMasks
