import Mathlib

/-! A message of `n` units cut into parts of one chunk each, the last one shorter. -/
namespace ChunkedMessages

def InPart (n chunk part b : ℕ) : Prop :=
  part * chunk < n ∧ part * chunk ≤ b ∧ b < part * chunk + min chunk (n - part * chunk)

instance (n chunk part b : ℕ) : Decidable (InPart n chunk part b) :=
  inferInstanceAs (Decidable (_ ∧ _))

variable {n d chunk part b : ℕ}

theorem inPart_iff (hchunk : 0 < chunk) : InPart n chunk part b ↔ b < n ∧ b / chunk = part := by
  have hdiv : b / chunk = part ↔ part * chunk ≤ b ∧ b < part * chunk + chunk := by
    rw [Nat.div_eq_iff hchunk]
    omega
  rw [hdiv, InPart]
  omega

theorem chunk_pos (hd : 0 < d) (hn : 0 < n) : 0 < n ⌈/⌉ d := by
  rw [Nat.ceilDiv_eq_add_pred_div]
  exact Nat.div_pos (by omega) hd

theorem part_lt (hd : 0 < d) (hb : b < n) : b / (n ⌈/⌉ d) < d := by
  rw [Nat.div_lt_iff_lt_mul (chunk_pos hd (Nat.zero_lt_of_lt hb))]
  have hcover : n ≤ d * (n ⌈/⌉ d) := le_smul_ceilDiv hd
  exact Nat.lt_of_lt_of_le hb hcover

theorem inPart_div (hd : 0 < d) (hb : b < n) : InPart n (n ⌈/⌉ d) (b / (n ⌈/⌉ d)) b :=
  (inPart_iff (chunk_pos hd (Nat.zero_lt_of_lt hb))).mpr ⟨hb, rfl⟩

def otherPart (n chunk parts own b : ℕ) : Option ℕ :=
  (List.range parts).find? fun part => part ≠ own ∧ InPart n chunk part b

theorem otherPart_eq {own : ℕ} (hd : 0 < d) (hb : b < n) : otherPart n (n ⌈/⌉ d) d own b =
      if b / (n ⌈/⌉ d) = own then none else some (b / (n ⌈/⌉ d)) := by
  have hchunk : 0 < n ⌈/⌉ d := chunk_pos hd (Nat.zero_lt_of_lt hb)
  unfold otherPart
  cases hfind : (List.range d).find? fun part => part ≠ own ∧ InPart n (n ⌈/⌉ d) part b with
  | none =>
    have hnone := List.find?_eq_none.mp hfind _ (List.mem_range.mpr (part_lt hd hb))
    simp only [inPart_div hd hb, and_true, decide_eq_true_eq, not_not] at hnone
    rw [if_pos hnone]
  | some part =>
    have hpart := List.find?_some hfind
    simp only [inPart_iff hchunk, decide_eq_true_eq] at hpart
    rw [if_neg (fun h => hpart.1 (hpart.2.2.symm.trans h)), hpart.2.2]

end ChunkedMessages
