import Rocshmem.CentralDirectBarrier
import Rocshmem.TileCopies

/-! How the root of `internal_direct_barrier_wg` releases the other members. Its waves share
them: a wave goes through the ranks with `i` and through the PEs with `j` next to it. Both
loops, that of the puts and that of the quiets, count this way. -/
namespace GdaBarrierAnnouncement

open CentralDirectBarrier (Team)
open ThreadPutPartition (turnsFrom)
open Multiset

def wfSize : ℕ := 64

def wfCount (blockSize : ℕ) : ℕ := (blockSize + wfSize - 1) / wfSize

def peLoop (t : Team) (step : ℕ) : ℕ → ℕ → ℕ → List ℕ
  | 0, _, _ => []
  | fuel + 1, i, j =>
    if i < t.nPes then j :: peLoop t step fuel (i + step) (j + step * t.stride) else []

def wavePes (t : Team) (step wfId : ℕ) : List ℕ :=
  peLoop t step t.nPes (wfId + 1) (t.peStart + t.stride + wfId)

def released (t : Team) (blockSize : ℕ) : Multiset ℕ :=
  (range (wfCount blockSize)).bind fun wfId => wavePes t (wfCount blockSize) wfId

def quieted (t : Team) (blockSize : ℕ) : Multiset ℕ :=
  (range (wfCount blockSize)).bind fun wfId => wavePes t (wfCount blockSize) wfId

def others (t : Team) : Multiset ℕ := (range (t.nPes - 1)).map fun i => t.member (i + 1)

variable {t : Team} {step fuel i j w blockSize : ℕ}

theorem wfCount_pos (hb : 0 < blockSize) : 0 < wfCount blockSize := by
  unfold wfCount wfSize
  omega

theorem peLoop_of_member (hj : j = t.member i) :
    peLoop t step fuel i j = (turnsFrom step t.nPes fuel i).map t.member := by
  induction fuel generalizing i j with
  | zero => rfl
  | succ fuel ih =>
    have hnext : j + step * t.stride = t.member (i + step) := by
      rw [hj, Team.member, Team.member, Nat.mul_add, Nat.mul_comm step, Nat.add_assoc]
    rw [peLoop, turnsFrom]
    split
    · rw [List.map_cons, ih hnext, hj]
    · rfl

theorem turnsFrom_succ (n : ℕ) : turnsFrom step (n + 1) fuel (i + 1) =
    (turnsFrom step n fuel i).map (· + 1) := by
  induction fuel generalizing i with
  | zero => rfl
  | succ fuel ih =>
    rw [turnsFrom, turnsFrom]
    by_cases hi : i < n
    · rw [if_pos (Nat.succ_lt_succ hi), if_pos hi, List.map_cons, ← ih, Nat.add_right_comm]
    · rw [if_neg (by omega), if_neg hi, List.map_nil]

theorem wavePes_eq (h : t.stride = 1 ∨ w = 0 ∨ t.nPes ≤ w + 1) :
    wavePes t step w = (turnsFrom step (t.nPes - 1) t.nPes w).map fun i => t.member (i + 1) := by
  obtain ⟨n, hn⟩ := Nat.exists_eq_add_of_le' t.pes_pos
  by_cases hlast : t.nPes ≤ w + 1
  · rw [wavePes, hn, peLoop, turnsFrom, if_neg (by omega), if_neg (by omega), List.map_nil]
  · have hj : t.peStart + t.stride + w = t.member (w + 1) := by
      rcases h with h | rfl | h
      · rw [Team.member, h]
        omega
      · rw [Team.member]
        omega
      · exact absurd h hlast
    rw [wavePes, peLoop_of_member hj]
    conv_lhs => rw [hn, turnsFrom_succ, List.map_map]
    rw [hn, Nat.add_sub_cancel]
    rfl

theorem released_eq (hb : 0 < blockSize)
    (h : t.stride = 1 ∨ wfCount blockSize = 1 ∨ t.nPes ≤ 2) : released t blockSize = others t := by
  have hwave : ∀ w ∈ range (wfCount blockSize), (wavePes t (wfCount blockSize) w : Multiset ℕ) =
      (turnsFrom (wfCount blockSize) (t.nPes - 1) t.nPes w : Multiset ℕ).map
        fun i => t.member (i + 1) := by
    intro w hw
    rw [mem_range] at hw
    rw [wavePes_eq (by omega), map_coe]
  have hturns := TileCopies.bind_turnsFrom (le_refl (wfCount blockSize)) (Nat.sub_le t.nPes 1)
  rw [filter_eq_self.mpr fun i _ => Nat.mod_lt i (wfCount_pos hb)] at hturns
  rw [released, bind_congr hwave, others, ← hturns, map_bind]

theorem not_member_of_second (hstride : 1 < t.stride) (i : ℕ) :
    t.peStart + t.stride + 1 ≠ t.member i := by
  intro h
  rw [Team.member, Nat.add_assoc, Nat.add_left_cancel_iff] at h
  rcases i with _ | _ | i
  · omega
  · omega
  · have hle : t.stride * 2 ≤ t.stride * (i + 1 + 1) := Nat.mul_le_mul_left _ (by omega)
    omega

theorem second_mem_released (hcount : 1 < wfCount blockSize) (hn : 2 < t.nPes) :
    t.peStart + t.stride + 1 ∈ released t blockSize := by
  obtain ⟨n, hfuel⟩ := Nat.exists_eq_add_of_le' t.pes_pos
  refine mem_bind.mpr ⟨1, mem_range.mpr hcount, ?_⟩
  rw [wavePes, hfuel, peLoop, if_pos hn]
  exact List.mem_cons_self

/-- The waves of the root release every other member once, and nobody else, and quiet exactly
their QPs, if and only if the stride is 1, one wave does it all or there is only one other
member. -/
theorem announces_team_iff (t : Team) (blockSize : ℕ) (hb : 0 < blockSize) :
    (released t blockSize = others t ∧ quieted t blockSize = others t) ↔
      t.stride = 1 ∨ wfCount blockSize = 1 ∨ t.nPes ≤ 2 := by
  constructor
  · rintro ⟨h, -⟩
    by_contra hno
    have hstride := t.stride_pos
    have hpos := wfCount_pos hb
    have hmem : t.peStart + t.stride + 1 ∈ released t blockSize :=
      second_mem_released (by omega) (by omega)
    rw [h, others, mem_map] at hmem
    obtain ⟨i, -, hi⟩ := hmem
    exact not_member_of_second (by omega) (i + 1) hi.symm
  · exact fun h => ⟨released_eq hb h, released_eq hb h⟩

theorem three_pes : 0 < 3 := by decide

def everySecond : Team := ⟨0, 2, 3, Nat.two_pos, three_pes⟩

theorem one_wave_announces :
    released everySecond 64 = others everySecond ∧ quieted everySecond 64 = others everySecond :=
  (announces_team_iff everySecond 64 (by decide)).mpr (.inr (.inl rfl))

/-- A block of two waves: the second one releases PE 3, and PE 4 waits. -/
theorem second_wave_misses :
    released everySecond 128 = {2, 3} ∧ others everySecond = {2, 4} := by
  decide +kernel

end GdaBarrierAnnouncement
